import Rustorr.Cache.Tally

/-! The eviction candidates of the cache, and what it means to be within the cap. -/

namespace Rustorr

namespace Cache

variable {σ : Type}

/-- At most the cap is stored, or all that is stored is pinned. -/
def WithinCap (c : Cache σ) : Prop :=
  c.storedBytes ≤ c.capBytes ∨
    ∀ h e, c.torrents.lookup h = some e → 0 < e.stored → 0 < e.pins

theorem withinCap_iff (c : Cache σ) :
    c.WithinCap ↔ c.storedBytes ≤ c.capBytes ∨
      ∀ h stored pins, c.tally h = some (stored, pins) → 0 < stored → 0 < pins := by
  refine or_congr Iff.rfl ⟨fun hall h stored pins ht => ?_, fun hall h e he => ?_⟩
  · obtain ⟨e, he, rfl, rfl⟩ := tally_eq_some.mp ht
    exact hall h e he
  · exact hall h _ _ (tally_eq_some.mpr ⟨e, he, rfl, rfl⟩)

def storedOf (c : Cache σ) (h : InfoHash) : ℕ := ((c.tally h).map Prod.fst).getD 0

/-! ### The candidates -/

theorem mem_idle {c : Cache σ} {s : Σ _ : InfoHash, Entry} :
    s ∈ c.idle ↔ s ∈ c.torrents.entries ∧ s.2.pins = 0 ∧ 0 < s.2.stored := by
  simp [idle, List.mem_insertionSort]

theorem tally_of_mem_idle {c : Cache σ} {s : Σ _ : InfoHash, Entry} (hs : s ∈ c.idle) :
    c.tally s.1 = some (s.2.stored, 0) := by
  obtain ⟨hmem, hpins, -⟩ := mem_idle.mp hs
  exact tally_eq_some.mpr ⟨s.2, AList.mem_lookup_iff.mpr hmem, rfl, hpins⟩

/-- The victims are the first idle torrents; they hold the excess or are all. -/
theorem victims_spec (excess : ℕ) (l : List (Σ _ : InfoHash, Entry)) :
    ∃ k, victims excess l = (l.take k).map Sigma.fst ∧
      (excess ≤ ((l.take k).map fun s => s.2.stored).sum ∨ l.take k = l) := by
  induction l generalizing excess with
  | nil => exact ⟨0, rfl, Or.inr rfl⟩
  | cons s rest ih =>
    unfold victims
    split
    · next h => exact ⟨0, rfl, Or.inl (by omega)⟩
    · obtain ⟨k, hk, hspec⟩ := ih (excess - s.2.stored)
      refine ⟨k + 1, by simp [hk], ?_⟩
      rcases hspec with hsum | hall
      · left
        simp only [List.take_succ_cons, List.map_cons, List.sum_cons]
        omega
      · right
        simp [hall]

theorem tally_of_mem_candidates {c : Cache σ} {h : InfoHash} (hh : h ∈ c.evictionCandidates) :
    ∃ stored, 0 < stored ∧ c.tally h = some (stored, 0) := by
  obtain ⟨k, hk, -⟩ := victims_spec (c.storedBytes - c.capBytes) c.idle
  unfold evictionCandidates at hh
  rw [hk] at hh
  obtain ⟨s, hs, rfl⟩ := List.mem_map.mp hh
  have hidle := List.mem_of_mem_take hs
  exact ⟨s.2.stored, (mem_idle.mp hidle).2.2, tally_of_mem_idle hidle⟩

/-- The candidates hold the excess, or no other unpinned torrent holds bytes. -/
theorem candidates_spec (c : Cache σ) :
    c.storedBytes ≤ c.capBytes + (c.evictionCandidates.map c.storedOf).sum ∨
      ∀ h stored, c.tally h = some (stored, 0) → 0 < stored → h ∈ c.evictionCandidates := by
  obtain ⟨k, hk, hspec⟩ := victims_spec (c.storedBytes - c.capBytes) c.idle
  unfold evictionCandidates
  rw [hk]
  rcases hspec with hsum | hall
  · left
    have hstored : ((c.idle.take k).map Sigma.fst).map c.storedOf =
        (c.idle.take k).map fun s => s.2.stored := by
      rw [List.map_map]
      refine List.map_congr_left fun s hs => ?_
      simp [storedOf, tally_of_mem_idle (List.mem_of_mem_take hs)]
    rw [hstored]
    omega
  · right
    intro h stored ht hpos
    obtain ⟨e, he, rfl, hpins⟩ := tally_eq_some.mp ht
    rw [hall]
    exact List.mem_map.mpr ⟨⟨h, e⟩, mem_idle.mpr ⟨AList.mem_lookup_iff.mp he, hpins, hpos⟩, rfl⟩

theorem nodup_candidates (c : Cache σ) : c.evictionCandidates.Nodup := by
  obtain ⟨k, hk, -⟩ := victims_spec (c.storedBytes - c.capBytes) c.idle
  unfold evictionCandidates
  rw [hk]
  have hkeys : (c.idle.map Sigma.fst).Nodup := by
    refine ((List.perm_insertionSort _ _).map Sigma.fst).nodup_iff.mpr ?_
    exact c.torrents.nodupKeys.sublist List.filter_sublist
  exact hkeys.sublist ((List.take_sublist k _).map _)

end Cache

end Rustorr
