import Rustorr.Cache.Demand
import Rustorr.Cache.Tally
import Mathlib.Data.Finset.Sort
import Mathlib.Data.List.Range

/-! The snapshot of a torrent after any demands: its pieces account for what was asked. -/

namespace Rustorr

open Cache (Entry Error)

structure TorrentSnapshot where
  torrent : InfoHash
  storedBytes : ℕ
  pieceLength : ℕ
  pieceCount : ℕ
  completedPieces : List PieceIndex
  demandedBytes : ℕ
  demandedPieces : List DemandedPiece
  activeReaders : List ReaderRange

/-- A call of `record_demand`. -/
structure Demand where
  torrent : InfoHash
  file : FileIndex
  offset : U64
  length : U64

namespace Cache

variable {σ : Type}

/-- A reader's range in the bytes of the torrent. -/
def activeReader (layout : TorrentLayout) (range : ReaderRange) : ReaderRange :=
  let fileOffset := (layout.fileOffset range.file).getD 0
  ⟨range.file, U64.saturatingAdd fileOffset range.start, U64.saturatingAdd fileOffset range.end_⟩

def snapshotOf (torrent : InfoHash) (e : Entry) (demandedPieces : List DemandedPiece) :
    TorrentSnapshot :=
  { torrent, storedBytes := e.stored, pieceLength := e.layout.pieceLength
    pieceCount := e.layout.pieceCount, completedPieces := e.pieces.indexes
    demandedBytes := e.demanded.total, demandedPieces
    activeReaders := e.readers.map fun r => activeReader e.layout r.2 }

/-- `none` where the report of the demanded pieces overflows. -/
def snapshot (torrent : InfoHash) (c : Cache σ) : Option (Except Error TorrentSnapshot) :=
  match c.entry torrent with
  | .error e => some (.error e)
  | .ok e => (demandedPieces e).map fun pieces => .ok (snapshotOf torrent e pieces)

def recordDemands (c : Cache σ) (demands : List Demand) : Cache σ :=
  demands.foldl (fun c d => (c.recordDemand d.torrent d.file d.offset d.length).2) c

end Cache

/-! ### What is asked for -/

/-- A call in range asks for a byte of the torrent. -/
def Demand.Asks (layout : TorrentLayout) (d : Demand) (i : ℕ) : Prop :=
  ∃ fileLength, layout.fileLength d.file = some fileLength ∧
    (d.offset : ℕ) + d.length ≤ fileLength ∧
    let fileStart := (layout.fileLengths.take d.file.zeroBased).sum
    fileStart + d.offset ≤ i ∧ i < fileStart + d.offset + d.length

/-- Some call for the torrent asks for a byte. -/
def Demanded (torrent : InfoHash) (layout : TorrentLayout) (demands : List Demand) (i : ℕ) : Prop :=
  ∃ d ∈ demands, d.torrent = torrent ∧ d.Asks layout i

/-- The pieces of a snapshot account for the bytes that were demanded. -/
structure TorrentSnapshot.Accounted (s : TorrentSnapshot) (layout : TorrentLayout)
    (Demanded : ℕ → Prop) : Prop where
  increasing : (s.demandedPieces.map fun p => (p.piece.get : ℕ)).Pairwise (· < ·)
  counted : ∀ p ∈ s.demandedPieces, (p.piece.get : ℕ) < layout.pieceCount
  listed : ∀ piece < layout.pieceCount, (∃ p ∈ s.demandedPieces, (p.piece.get : ℕ) = piece) ↔
    ∃ i ∈ layout.pieceBytes piece, Demanded i
  total : (s.demandedPieces.map DemandedPiece.size).sum = s.demandedBytes
  size_le : ∀ p ∈ s.demandedPieces, p.size ≤ layout.actualLength p.piece.get
  completed : ∀ piece < layout.pieceCount,
    (∃ p ∈ s.demandedPieces, (p.piece.get : ℕ) = piece ∧ p.completed = true) ↔
      ∀ i ∈ layout.pieceBytes piece, Demanded i

namespace TorrentLayout

variable {layout : TorrentLayout}

theorem fileOffset_eq {file : FileIndex} {n : ℕ} (h : layout.fileLength file = some n) :
    layout.fileOffset file = some (layout.fileLengths.take file.zeroBased).sum := by
  have hlt : (layout.fileLengths.take file.zeroBased).sum < 2 ^ 64 := by
    apply lt_of_le_of_lt _ layout.totalLength_lt
    rw [layout.totalLength_eq]
    exact (List.take_sublist _ _).sum_le_sum fun _ _ => Nat.zero_le _
  unfold fileOffset
  rw [if_pos (show (file.zeroBased : ℕ) ≤ layout.fileLengths.length from (fileLength_lt h).le)]
  exact U64.checkedSum_eq_some.mpr ⟨hlt, rfl⟩

/-- A file ends within the torrent. -/
theorem fileEnd_le {file : FileIndex} {n : ℕ} (h : layout.fileLength file = some n) :
    (layout.fileLengths.take file.zeroBased).sum + n ≤ layout.totalLength := by
  obtain ⟨hlt, hget⟩ := List.getElem?_eq_some_iff.mp h
  have htake : (layout.fileLengths.take (file.zeroBased + 1)).sum =
      (layout.fileLengths.take file.zeroBased).sum + n := by
    rw [List.sum_take_succ _ _ hlt, hget]
  rw [← htake, layout.totalLength_eq]
  exact (List.take_sublist _ _).sum_le_sum fun _ _ => Nat.zero_le _

theorem checkRange_of_le (torrent : InfoHash) {file : FileIndex} {offset len n : ℕ}
    (h : layout.fileLength file = some n) (hle : offset + len ≤ n) :
    ∃ range, layout.checkRange torrent file offset len = .ok range := by
  have hlt : offset + len < 2 ^ 64 := by
    have hend := fileEnd_le h
    have htotal := layout.totalLength_lt
    omega
  have hrange : ByteRange.fromStartLen offset len = .ok ⟨offset, offset + len, by omega, hlt⟩ :=
    dif_pos hlt
  have hfits : (ByteRange.mk offset (offset + len) (by omega) hlt).fitsWithin n = true :=
    decide_eq_true hle
  refine ⟨⟨offset, offset + len, by omega, hlt⟩, ?_⟩
  unfold checkRange
  rw [h, hrange]
  simp only
  rw [hfits, Bool.not_true, if_neg Bool.false_ne_true]

/-- Only the last piece may reach past the numbers of the machine. -/
theorem ends_fit_iff {P : ℕ → Prop} (hwithin : ∀ i, P i → i < layout.totalLength) :
    (∀ i, P i → (i / layout.pieceLength + 1) * layout.pieceLength < 2 ^ 64) ↔
      layout.pieceCount * layout.pieceLength < 2 ^ 64 ∨
        ∀ i, P i → i / layout.pieceLength + 1 < layout.pieceCount := by
  constructor
  · intro hends
    by_cases hlast : ∀ i, P i → i / layout.pieceLength + 1 < layout.pieceCount
    · exact Or.inr hlast
    · push Not at hlast
      obtain ⟨i, hi, hle⟩ := hlast
      have hcount := layout.div_lt_pieceCount (hwithin i hi)
      have heq : i / layout.pieceLength + 1 = layout.pieceCount := by omega
      apply Or.inl
      rw [← heq]
      exact hends i hi
  · rintro (hfit | hlast) i hi
    · apply lt_of_le_of_lt _ hfit
      exact Nat.mul_le_mul_right _ (layout.div_lt_pieceCount (hwithin i hi))
    · exact (pieceEnd_le (hlast i hi)).trans layout.totalLength_lt

end TorrentLayout

/-! ### One call, and a run of calls -/

namespace Cache

open TorrentLayout

variable {σ : Type} {c : Cache σ} {e : Entry} {torrent : InfoHash}

theorem entry_setEntry (c : Cache σ) (h : InfoHash) (e : Entry) : (c.setEntry h e).entry h = .ok e := by
  unfold entry
  rw [setEntry_torrents, AList.lookup_insert]

theorem entry_setEntry_of_ne {h : InfoHash} (hne : h ≠ torrent) (c : Cache σ) (e : Entry) :
    (c.setEntry torrent e).entry h = c.entry h := by
  unfold entry
  rw [setEntry_torrents, AList.lookup_insert_ne hne]

/-- A call in range enters its bytes; any other is refused and changes nothing. -/
theorem recordDemand_spec (hentry : c.entry torrent = .ok e) (d : Demand) :
    ∃ demanded, (c.recordDemand d.torrent d.file d.offset d.length).2.entry torrent =
        .ok { e with demanded } ∧
      ∀ i, i ∈ demanded.bytes ↔
        i ∈ e.demanded.bytes ∨ (d.torrent = torrent ∧ d.Asks e.layout i) := by
  by_cases htorrent : d.torrent = torrent
  · subst htorrent
    cases hcheck : e.layout.checkRange d.torrent d.file d.offset d.length with
    | error error =>
      refine ⟨e.demanded, ?_, fun i => ?_⟩
      · unfold recordDemand
        simp only [hentry, hcheck]
      · constructor
        · exact Or.inl
        · rintro (hi | ⟨-, n, hn, hle, -⟩)
          · exact hi
          · obtain ⟨range, hok⟩ := checkRange_of_le d.torrent hn hle
            rw [hok] at hcheck
            cases hcheck
    | ok range =>
      obtain ⟨-, -, n, hn, hle⟩ := checkRange_eq_ok hcheck
      have hfits := fileEnd_le hn
      have htotal := e.layout.totalLength_lt
      generalize hstart : (e.layout.fileLengths.take d.file.zeroBased).sum = fileStart at hfits
      have hoffset : e.layout.fileOffset d.file = some fileStart := hstart ▸ fileOffset_eq hn
      have hend : fileStart + d.offset + d.length < 2 ^ 64 := by omega
      have hnew : ByteRange.new (Fin.ofNat (2 ^ 64) (fileStart + d.offset))
          (Fin.ofNat (2 ^ 64) (fileStart + d.offset + d.length)) =
            .ok ⟨fileStart + d.offset, fileStart + d.offset + d.length, by omega, hend⟩ := by
        have hlow : (Fin.ofNat (2 ^ 64) (fileStart + d.offset) : ℕ) = fileStart + d.offset :=
          Nat.mod_eq_of_lt (by omega)
        have hhigh : (Fin.ofNat (2 ^ 64) (fileStart + d.offset + d.length) : ℕ) =
            fileStart + d.offset + d.length := Nat.mod_eq_of_lt hend
        unfold ByteRange.new
        rw [dif_neg (by rw [gt_iff_lt, Fin.lt_def, hlow, hhigh]; omega)]
        simp only [hlow, hhigh]
      refine ⟨(e.demanded.insert ⟨fileStart + d.offset, fileStart + d.offset + d.length, by omega,
        hend⟩).2, ?_, fun i => ?_⟩
      · unfold recordDemand
        simp only [hentry, hcheck, hoffset, U64.checkedAdd_of_lt (show fileStart + d.offset < 2 ^ 64 by omega),
          U64.checkedAdd_of_lt hend, hnew]
        exact entry_setEntry _ _ _
      · rw [Extents.bytes_insert, Finset.mem_union, ByteRange.bytes, Finset.mem_Ico]
        apply or_congr Iff.rfl
        constructor
        · intro hi
          exact ⟨rfl, n, hn, hle, by simpa only [hstart] using hi⟩
        · rintro ⟨-, _, -, -, hi⟩
          simpa only [hstart] using hi
  · refine ⟨e.demanded, ?_, fun i => ⟨Or.inl, fun hi => hi.resolve_right fun hd => htorrent hd.1⟩⟩
    rw [show ({ e with demanded := e.demanded } : Entry) = e from rfl, ← hentry]
    unfold recordDemand
    repeat' split
    all_goals first
      | rfl
      | exact entry_setEntry_of_ne (Ne.symm htorrent) c _

theorem recordDemands_spec (demands : List Demand) (hentry : c.entry torrent = .ok e) :
    ∃ demanded, (c.recordDemands demands).entry torrent = .ok { e with demanded } ∧
      ∀ i, i ∈ demanded.bytes ↔ i ∈ e.demanded.bytes ∨ Demanded torrent e.layout demands i := by
  induction demands generalizing c e with
  | nil =>
    refine ⟨e.demanded, hentry, fun i => ⟨Or.inl, fun hi => hi.resolve_right ?_⟩⟩
    rintro ⟨d, hd, -⟩
    cases hd
  | cons d demands ih =>
    obtain ⟨first, hfirst, hbytes⟩ := recordDemand_spec hentry d
    obtain ⟨demanded, hlast, hmore⟩ := ih hfirst
    refine ⟨demanded, hlast, fun i => ?_⟩
    rw [hmore, hbytes, or_assoc]
    apply or_congr Iff.rfl
    constructor
    · rintro (⟨htorrent, hasks⟩ | ⟨d', hd', hasks⟩)
      · exact ⟨d, List.mem_cons_self, htorrent, hasks⟩
      · exact ⟨d', List.mem_cons_of_mem d hd', hasks⟩
    · rintro ⟨d', hd', hasks⟩
      rcases List.mem_cons.mp hd' with rfl | hd'
      · exact Or.inl hasks
      · exact Or.inr ⟨d', hd', hasks⟩

theorem asks_lt {layout : TorrentLayout} {d : Demand} {i : ℕ} (h : d.Asks layout i) :
    i < layout.totalLength := by
  obtain ⟨n, hn, hle, -, hlt⟩ := h
  have hend := fileEnd_le hn
  omega

/-- The demands of a fresh entry lie in the torrent. -/
theorem demanded_lt {layout : TorrentLayout} {demands : List Demand} {i : ℕ}
    (h : Demanded torrent layout demands i) : i < layout.totalLength := by
  obtain ⟨d, -, -, hasks⟩ := h
  exact asks_lt hasks

/-! ### The report of a run -/

/-- What was demanded, counted piece by piece. -/
theorem sum_demandOf (hwithin : e.Within) :
    ((List.range e.layout.pieceCount).map e.demandOf).sum = e.demanded.total := by
  have hmaps : ∀ i ∈ e.demanded.bytes,
      i / e.layout.pieceLength ∈ Finset.range e.layout.pieceCount := fun i hi =>
    Finset.mem_range.mpr (e.layout.div_lt_pieceCount (hwithin i hi))
  have hfiber : ∀ k, e.demandOf k =
      (e.demanded.bytes.filter fun i => i / e.layout.pieceLength = k).card := by
    intro k
    unfold Entry.demandOf
    congr 1
    ext i
    rw [Finset.mem_inter, Finset.mem_filter]
    apply and_congr_right
    intro hi
    exact mem_pieceBytes (hwithin i hi)
  rw [Extents.total_eq_card, Finset.card_eq_sum_card_fiberwise hmaps, ← List.toFinset_range,
    List.sum_toFinset _ List.nodup_range]
  congr 1
  apply List.map_congr_left
  intro k _
  exact hfiber k

theorem sum_filter_ne_zero (f : ℕ → ℕ) (l : List ℕ) :
    ((l.filter fun k => f k ≠ 0).map f).sum = (l.map f).sum := by
  induction l with
  | nil => rfl
  | cons k l ih =>
    rw [List.filter_cons]
    split
    · rw [List.map_cons, List.map_cons, List.sum_cons, List.sum_cons, ih]
    · next hzero =>
      have hk : f k = 0 := by simpa using hzero
      rw [ih, List.map_cons, List.sum_cons, hk, Nat.zero_add]

theorem demandOf_le (e : Entry) {piece : ℕ} (h : piece < e.layout.pieceCount) :
    e.demandOf piece ≤ e.layout.actualLength piece := by
  rw [← card_pieceBytes h]
  exact Finset.card_le_card Finset.inter_subset_right

theorem demandOf_ne_zero (e : Entry) (piece : ℕ) :
    e.demandOf piece ≠ 0 ↔ ∃ i ∈ e.layout.pieceBytes piece, i ∈ e.demanded.bytes := by
  unfold Entry.demandOf
  rw [Finset.card_ne_zero]
  constructor
  · rintro ⟨i, hi⟩
    exact ⟨i, (Finset.mem_inter.mp hi).2, (Finset.mem_inter.mp hi).1⟩
  · rintro ⟨i, hpiece, hi⟩
    exact ⟨i, Finset.mem_inter.mpr ⟨hi, hpiece⟩⟩

theorem demandOf_eq_actualLength (e : Entry) {piece : ℕ} (h : piece < e.layout.pieceCount) :
    e.demandOf piece = e.layout.actualLength piece ↔
      ∀ i ∈ e.layout.pieceBytes piece, i ∈ e.demanded.bytes := by
  rw [← card_pieceBytes h]
  unfold Entry.demandOf
  constructor
  · intro hcard i hi
    have hall := Finset.eq_of_subset_of_card_le Finset.inter_subset_right hcard.ge
    rw [← hall] at hi
    exact (Finset.mem_inter.mp hi).1
  · intro hall
    rw [Finset.inter_eq_right.mpr fun i hi => hall i hi]

theorem pieceBytes_nonempty {layout : TorrentLayout} {piece : ℕ} (h : piece < layout.pieceCount) :
    (layout.pieceBytes piece).Nonempty := by
  have hpos := layout.pieceLength_pos
  refine ⟨piece * layout.pieceLength, Finset.mem_Ico.mpr ⟨le_rfl, lt_min ?_ (pieceStart_lt h)⟩⟩
  rw [Nat.add_mul, Nat.one_mul]
  omega

/-- Where the report does not overflow, it accounts for the entry's demands. -/
theorem accounted_snapshotOf (torrent : InfoHash) {pieces : List DemandedPiece} (hwithin : e.Within) (hends : e.EndsFit)
    (hpieces : demandedPieces e = some pieces) :
    (snapshotOf torrent e pieces).Accounted e.layout fun i => i ∈ e.demanded.bytes := by
  have hlt : ∀ k ∈ (List.range e.layout.pieceCount).filter fun k => e.demandOf k ≠ 0,
      k < e.layout.pieceCount := fun k hk => List.mem_range.mp (List.mem_of_mem_filter hk)
  have hposition : ∀ {k}, k < e.layout.pieceCount → ((PieceIndex.ofPosition k).get : ℕ) = k :=
    fun hk => PieceIndex.ofPosition_of_lt (hk.trans e.layout.pieceCount_lt)
  have hlisted := Option.some.inj (hpieces.symm.trans (demandedPieces_eq hwithin hends))
  -- an element of the report, by its place
  have hmem : ∀ {p}, p ∈ pieces ↔ ∃ k, (k < e.layout.pieceCount ∧ e.demandOf k ≠ 0) ∧
      (⟨PieceIndex.ofPosition k, e.demandOf k, e.demandOf k = e.layout.actualLength k⟩ : DemandedPiece) = p := by
    intro p
    rw [hlisted, List.mem_map]
    apply exists_congr
    intro k
    rw [List.mem_filter, List.mem_range, decide_eq_true_iff]
  constructor
  · have hplaces : (pieces.map fun p => (p.piece.get : ℕ)) =
        (List.range e.layout.pieceCount).filter fun k => e.demandOf k ≠ 0 := by
      rw [hlisted, List.map_map]
      exact (List.map_congr_left fun k hk => hposition (hlt k hk)).trans (List.map_id _)
    unfold snapshotOf
    rw [hplaces]
    exact List.pairwise_lt_range.filter _
  · intro p hp
    obtain ⟨k, ⟨hk, -⟩, rfl⟩ := hmem.mp hp
    rwa [hposition hk]
  · intro piece hpiece
    rw [← demandOf_ne_zero]
    constructor
    · rintro ⟨p, hp, hplace⟩
      obtain ⟨k, ⟨hk, hne⟩, rfl⟩ := hmem.mp hp
      rwa [← hplace, hposition hk]
    · intro hne
      exact ⟨_, hmem.mpr ⟨piece, ⟨hpiece, hne⟩, rfl⟩, hposition hpiece⟩
  · unfold snapshotOf
    rw [← sum_demandOf hwithin, ← sum_filter_ne_zero, hlisted, List.map_map]
    rfl
  · intro p hp
    obtain ⟨k, ⟨hk, -⟩, rfl⟩ := hmem.mp hp
    rw [hposition hk]
    exact demandOf_le e hk
  · intro piece hpiece
    rw [← demandOf_eq_actualLength e hpiece]
    constructor
    · rintro ⟨p, hp, hplace, hcompleted⟩
      obtain ⟨k, ⟨hk, -⟩, rfl⟩ := hmem.mp hp
      rw [← hplace, hposition hk]
      exact of_decide_eq_true hcompleted
    · intro hall
      have hne : e.demandOf piece ≠ 0 := by
        obtain ⟨i, hi⟩ := pieceBytes_nonempty hpiece
        exact (demandOf_ne_zero e piece).mpr
          ⟨i, hi, (demandOf_eq_actualLength e hpiece).mp hall i hi⟩
      exact ⟨_, hmem.mpr ⟨piece, ⟨hpiece, hne⟩, rfl⟩, hposition hpiece, decide_eq_true hall⟩

theorem endsFit_iff {demanded : Extents} {demands : List Demand}
    (hbytes : ∀ i, i ∈ demanded.bytes ↔ Demanded torrent e.layout demands i) :
    ({ e with demanded } : Entry).EndsFit ↔ e.layout.pieceCount * e.layout.pieceLength < 2 ^ 64 ∨
      ∀ i, Demanded torrent e.layout demands i →
        i / e.layout.pieceLength + 1 < e.layout.pieceCount := by
  rw [← ends_fit_iff fun i hi => demanded_lt hi]
  apply forall_congr'
  intro i
  rw [hbytes]

/-- A fresh entry takes exactly what the calls ask for. -/
theorem recordDemands_fresh (hentry : c.entry torrent = .ok e) (hfresh : e.demanded = Extents.empty)
    (demands : List Demand) :
    ∃ demanded, (c.recordDemands demands).entry torrent = .ok { e with demanded } ∧
      ∀ i, i ∈ demanded.bytes ↔ Demanded torrent e.layout demands i := by
  obtain ⟨demanded, hafter, hbytes⟩ := recordDemands_spec demands hentry
  refine ⟨demanded, hafter, fun i => ?_⟩
  rw [hbytes, hfresh, Extents.bytes_empty]
  exact or_iff_right (Finset.notMem_empty i)

/-- The snapshot overflows once a byte is asked for of a piece whose end is no number of the machine. -/
theorem snapshot_eq_none (hentry : c.entry torrent = .ok e) (hfresh : e.demanded = Extents.empty)
    {demands : List Demand}
    (h : ¬(e.layout.pieceCount * e.layout.pieceLength < 2 ^ 64 ∨
      ∀ i, Demanded torrent e.layout demands i →
        i / e.layout.pieceLength + 1 < e.layout.pieceCount)) :
    (c.recordDemands demands).snapshot torrent = none := by
  obtain ⟨demanded, hafter, hbytes⟩ := recordDemands_fresh hentry hfresh demands
  rw [← endsFit_iff hbytes] at h
  unfold snapshot
  rw [hafter]
  simp only
  rw [demandedPieces_eq_none h, Option.map_none]

/-- The demands of a torrent are accounted for if the end of its last piece is a number of the
machine, or nothing of that piece was asked for; otherwise the snapshot overflows. -/
theorem snapshot_accounts_iff (hentry : c.entry torrent = .ok e)
    (hfresh : e.demanded = Extents.empty) (demands : List Demand) :
    (∃ s, (c.recordDemands demands).snapshot torrent = some (.ok s) ∧
        s.Accounted e.layout (Demanded torrent e.layout demands)) ↔
      e.layout.pieceCount * e.layout.pieceLength < 2 ^ 64 ∨
        ∀ i, Demanded torrent e.layout demands i →
          i / e.layout.pieceLength + 1 < e.layout.pieceCount := by
  constructor
  · rintro ⟨s, hsnapshot, -⟩
    by_contra hnot
    rw [snapshot_eq_none hentry hfresh hnot] at hsnapshot
    cases hsnapshot
  · intro hfit
    obtain ⟨demanded, hafter, hbytes⟩ := recordDemands_fresh hentry hfresh demands
    have hwithin : ({ e with demanded } : Entry).Within := fun i hi =>
      demanded_lt ((hbytes i).mp hi)
    have hpieces := demandedPieces_eq hwithin ((endsFit_iff hbytes).mpr hfit)
    have haccounted := accounted_snapshotOf torrent hwithin ((endsFit_iff hbytes).mpr hfit) hpieces
    rw [show (fun i => i ∈ demanded.bytes) = Demanded torrent e.layout demands from
      funext fun i => propext (hbytes i)] at haccounted
    refine ⟨_, ?_, haccounted⟩
    unfold snapshot
    rw [hafter]
    simp only
    rw [hpieces, Option.map_some]

/-- A torrent just opened. -/
def opened (torrent : InfoHash) (layout : TorrentLayout) : Cache Unit :=
  (Cache.new () 0).setEntry torrent
    ⟨layout, PieceSet.new layout.pieceCount, 0, 0, [], Extents.empty, 0⟩

theorem entry_opened (torrent : InfoHash) (layout : TorrentLayout) :
    (opened torrent layout).entry torrent =
      .ok ⟨layout, PieceSet.new layout.pieceCount, 0, 0, [], Extents.empty, 0⟩ :=
  entry_setEntry _ _ _

/-- An empty file between two others, and a demand of each that holds bytes. -/
theorem snapshot_accounts_short_last_piece :
    let layout : TorrentLayout := ⟨4, [5, 0, 5], 10, 3, by decide, by decide, rfl, by decide, rfl, by decide⟩
    let torrent : InfoHash := ⟨List.replicate 20 1, rfl⟩
    let demands : List Demand := [⟨torrent, FileIndex.ofPosition 0, 3, 2⟩,
      ⟨torrent, FileIndex.ofPosition 2, 3, 2⟩, ⟨torrent, FileIndex.ofPosition 2, 0, 4⟩]
    ∃ s, ((opened torrent layout).recordDemands demands).snapshot torrent = some (.ok s) ∧
      s.Accounted layout (Demanded torrent layout demands) := by
  intro layout torrent demands
  exact (snapshot_accounts_iff (entry_opened torrent layout) rfl demands).mpr (Or.inl (by decide))

/-- A layout that is admitted although its second piece ends at `2 ^ 64 + 2`. -/
def wideLayout : TorrentLayout :=
  ⟨2 ^ 63 + 1, [2 ^ 64 - 1], 2 ^ 64 - 1, 2, by decide, by decide, rfl, by decide, rfl, by decide⟩

theorem snapshot_overflows_wide_layout :
    let torrent : InfoHash := ⟨List.replicate 20 1, rfl⟩
    let demand : Demand := ⟨torrent, FileIndex.ofPosition 0, Fin.ofNat (2 ^ 64) (2 ^ 64 - 2), 1⟩
    TorrentLayout.new (Fin.ofNat (2 ^ 64) (2 ^ 63 + 1)) [Fin.ofNat (2 ^ 64) (2 ^ 64 - 1)] =
        .ok wideLayout ∧
      demand.Asks wideLayout (2 ^ 64 - 2) ∧
      ((opened torrent wideLayout).recordDemands [demand]).snapshot torrent = none := by
  intro torrent demand
  have hasks : demand.Asks wideLayout (2 ^ 64 - 2) := by
    refine ⟨2 ^ 64 - 1, rfl, by decide, ?_⟩
    decide
  refine ⟨by rfl, hasks, snapshot_eq_none (entry_opened torrent wideLayout) rfl ?_⟩
  rintro (hfit | hlast)
  · exact absurd hfit (by decide)
  · exact absurd (hlast (2 ^ 64 - 2) ⟨demand, List.mem_singleton.mpr rfl, rfl, hasks⟩) (by decide)

end Cache

end Rustorr
