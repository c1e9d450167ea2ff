import Rustorr.Cache.Registry
import Rustorr.Lib.Fallible
import Mathlib.Data.Finset.Card
import Mathlib.Algebra.Order.BigOperators.Group.Finset

/-! What playback has asked for, piece by piece (`demanded_pieces`). Every product and sum of the
source is a checked one here, so an answer of `none` is an overflow. -/

namespace Rustorr

open Spans

structure DemandedPiece where
  piece : PieceIndex
  size : ℕ
  completed : Bool
  deriving DecidableEq

namespace TorrentLayout

variable (layout : TorrentLayout)

/-- The bytes of a span that lie in a piece are added to the piece's size. -/
def addPiece (span : ℕ × ℕ) (sizes : List ℕ) (piece : ℕ) : Option (List ℕ) := do
  let pieceStart ← U64.checkedMul piece layout.pieceLength
  let pieceEnd ← U64.checkedAdd pieceStart layout.pieceLength
  let pieceEnd := min pieceEnd layout.totalLength
  let overlap := min span.2 pieceEnd - max span.1 pieceStart
  match sizes[piece]? with
  | some size => (U64.checkedAdd size overlap).map fun size => sizes.set piece size
  | none => some sizes

/-- The pieces `first..=last` that a span touches. -/
def touched (span : ℕ × ℕ) : List ℕ :=
  let first := span.1 / layout.pieceLength
  let last := (span.2 - 1) / layout.pieceLength
  List.range' first (last + 1 - first)

def addSpan (sizes : List ℕ) (span : ℕ × ℕ) : Option (List ℕ) :=
  (layout.touched span).foldlM (layout.addPiece span) sizes

/-- What is reported of a piece of which something was demanded. -/
def report (size piece : ℕ) : Option DemandedPiece := do
  let actualLength ←
    if piece + 1 = layout.pieceCount then
      (U64.checkedMul piece layout.pieceLength).map fun pieceStart => layout.totalLength - pieceStart
    else some layout.pieceLength
  return ⟨PieceIndex.ofPosition piece, size, size = actualLength⟩

end TorrentLayout

namespace Cache

def demandedPieces (e : Entry) : Option (List DemandedPiece) := do
  let sizes ← e.demanded.spans.foldlM e.layout.addSpan (List.replicate e.layout.pieceCount 0)
  (sizes.zipIdx.filter fun p => p.1 ≠ 0).mapM fun p => e.layout.report p.1 p.2

end Cache

/-! ### The bytes of a piece -/

namespace TorrentLayout

variable {layout : TorrentLayout}

/-- The bytes of a piece; the last one may be shorter. -/
def pieceBytes (layout : TorrentLayout) (piece : ℕ) : Finset ℕ :=
  Finset.Ico (piece * layout.pieceLength) (min ((piece + 1) * layout.pieceLength) layout.totalLength)

theorem pieceLength_pos (layout : TorrentLayout) : 0 < layout.pieceLength :=
  Nat.pos_of_ne_zero layout.pieceLength_ne

theorem mem_pieceBytes {piece i : ℕ} (h : i < layout.totalLength) :
    i ∈ layout.pieceBytes piece ↔ i / layout.pieceLength = piece := by
  unfold pieceBytes
  rw [Finset.mem_Ico, lt_min_iff, and_iff_left h, ← Nat.le_div_iff_mul_le layout.pieceLength_pos,
    ← Nat.div_lt_iff_lt_mul layout.pieceLength_pos, Nat.lt_succ_iff, ← le_antisymm_iff, eq_comm]

/-- Every byte lies in a piece that the layout counts. -/
theorem div_lt_pieceCount (layout : TorrentLayout) {i : ℕ} (h : i < layout.totalLength) :
    i / layout.pieceLength < layout.pieceCount := by
  have hdiv := Nat.div_add_mod layout.totalLength layout.pieceLength
  rw [layout.pieceCount_eq, Nat.div_lt_iff_lt_mul layout.pieceLength_pos]
  unfold U64.divCeil
  have hmod := Nat.mod_lt layout.totalLength layout.pieceLength_pos
  split
  · rw [Nat.add_mul, Nat.mul_comm]
    omega
  · rw [Nat.mul_comm]
    omega

theorem pieceStart_lt {piece : ℕ} (h : piece < layout.pieceCount) :
    piece * layout.pieceLength < layout.totalLength := by
  rw [layout.pieceCount_eq] at h
  have hdiv := Nat.div_add_mod layout.totalLength layout.pieceLength
  unfold U64.divCeil at h
  split at h
  · have hle := Nat.mul_le_mul_left layout.pieceLength (Nat.lt_succ_iff.mp h)
    rw [Nat.mul_comm]
    omega
  · have hle := Nat.mul_le_mul_left layout.pieceLength (Nat.succ_le_of_lt h)
    have hpos := layout.pieceLength_pos
    rw [Nat.mul_succ] at hle
    rw [Nat.mul_comm]
    omega

/-- Only the last piece may reach beyond the end, and only its end may be no machine number. -/
theorem pieceEnd_le {piece : ℕ} (h : piece + 1 < layout.pieceCount) :
    (piece + 1) * layout.pieceLength < layout.totalLength := pieceStart_lt h

/-- `actual_length`. -/
def actualLength (layout : TorrentLayout) (piece : ℕ) : ℕ :=
  if piece + 1 = layout.pieceCount then layout.totalLength - piece * layout.pieceLength
  else layout.pieceLength

theorem card_pieceBytes {piece : ℕ} (h : piece < layout.pieceCount) :
    (layout.pieceBytes piece).card = layout.actualLength piece := by
  unfold pieceBytes actualLength
  rw [Nat.card_Ico]
  split
  · next hlast =>
    have hle : layout.totalLength ≤ (piece + 1) * layout.pieceLength := by
      by_contra hlt
      have hcount := layout.div_lt_pieceCount (not_le.mp hlt)
      rw [Nat.mul_div_cancel _ layout.pieceLength_pos] at hcount
      omega
    rw [min_eq_right hle]
  · next hlast =>
    rw [min_eq_left (pieceEnd_le (by omega)).le, Nat.add_mul, Nat.one_mul, Nat.add_sub_cancel_left]

theorem report_eq {size piece : ℕ} (h : piece < layout.pieceCount) :
    layout.report size piece =
      some ⟨PieceIndex.ofPosition piece, size, size = layout.actualLength piece⟩ := by
  have hstart := (pieceStart_lt h).trans layout.totalLength_lt
  unfold report actualLength
  rw [U64.checkedMul_of_lt hstart]
  split <;> rfl

/-! ### The sizes -/

/-- The bytes of a span that lie in a piece. -/
def overlap (layout : TorrentLayout) (span : ℕ × ℕ) (piece : ℕ) : ℕ :=
  (Finset.Ico span.1 span.2 ∩ layout.pieceBytes piece).card

theorem overlap_eq (span : ℕ × ℕ) (piece : ℕ) :
    min span.2 (min ((piece + 1) * layout.pieceLength) layout.totalLength) -
      max span.1 (piece * layout.pieceLength) = layout.overlap span piece := by
  unfold overlap pieceBytes
  rw [Finset.Ico_inter_Ico, Nat.card_Ico]

theorem addPiece_eq {span : ℕ × ℕ} {piece : ℕ} {f : ℕ → ℕ} (hpiece : piece < layout.pieceCount)
    (hend : (piece + 1) * layout.pieceLength < 2 ^ 64)
    (hsize : f piece + layout.overlap span piece < 2 ^ 64) :
    layout.addPiece span ((List.range layout.pieceCount).map f) piece =
      some ((List.range layout.pieceCount).map fun k =>
        if k = piece then f k + layout.overlap span k else f k) := by
  have hstart := (pieceStart_lt hpiece).trans layout.totalLength_lt
  have hget : ((List.range layout.pieceCount).map f)[piece]? = some (f piece) := by
    rw [List.getElem?_map, List.getElem?_range hpiece, Option.map_some]
  have hset : ((List.range layout.pieceCount).map f).set piece (f piece + layout.overlap span piece) =
      (List.range layout.pieceCount).map fun k =>
        if k = piece then f k + layout.overlap span k else f k := by
    apply List.ext_getElem
    · rw [List.length_set, List.length_map, List.length_map]
    · intro k hk hk'
      rw [List.getElem_set, List.getElem_map, List.getElem_map, List.getElem_range]
      split
      · next heq => rw [if_pos heq.symm, heq]
      · next hne => rw [if_neg fun heq => hne heq.symm]
  unfold addPiece
  rw [U64.checkedMul_of_lt hstart, Option.bind_eq_bind, Option.bind_some,
    U64.checkedAdd_of_lt (by rwa [Nat.add_mul, Nat.one_mul] at hend), Option.bind_some]
  simp only
  rw [hget, ← Nat.succ_mul, overlap_eq]
  simp only
  rw [U64.checkedAdd_of_lt hsize, Option.map_some, hset]

/-- Where the end of a piece is no machine number, the sum overflows. -/
theorem addPiece_eq_none {span : ℕ × ℕ} {piece : ℕ} (hend : 2 ^ 64 ≤ (piece + 1) * layout.pieceLength)
    (sizes : List ℕ) : layout.addPiece span sizes piece = none := by
  rw [Nat.add_mul, Nat.one_mul] at hend
  unfold addPiece U64.checkedMul
  split
  · rw [Option.bind_eq_bind, Option.bind_some, U64.checkedAdd_eq_none.mpr hend]
    rfl
  · rfl

/-- Pieces one after the other, none of them twice. -/
theorem foldlM_addPiece {span : ℕ × ℕ} {pieces : List ℕ} {f : ℕ → ℕ} (hnodup : pieces.Nodup)
    (hpieces : ∀ k ∈ pieces, k < layout.pieceCount ∧ (k + 1) * layout.pieceLength < 2 ^ 64)
    (hsize : ∀ k ∈ pieces, f k + layout.overlap span k < 2 ^ 64) :
    pieces.foldlM (layout.addPiece span) ((List.range layout.pieceCount).map f) =
      some ((List.range layout.pieceCount).map fun k =>
        if k ∈ pieces then f k + layout.overlap span k else f k) := by
  induction pieces generalizing f with
  | nil =>
    rw [List.foldlM_nil]
    simp only [List.not_mem_nil, if_false]
    rfl
  | cons piece pieces ih =>
    obtain ⟨hpiece, hrest⟩ := List.forall_mem_cons.mp hpieces
    obtain ⟨hnot, hnodup⟩ := List.nodup_cons.mp hnodup
    obtain ⟨hfirst, hlater⟩ := List.forall_mem_cons.mp hsize
    rw [List.foldlM_cons, addPiece_eq hpiece.1 hpiece.2 hfirst, Option.bind_eq_bind, Option.bind_some,
      ih hnodup hrest fun k hk => by
        rw [if_neg (ne_of_mem_of_not_mem hk hnot)]
        exact hlater k hk]
    congr 1
    apply List.map_congr_left
    intro k _
    by_cases hk : k ∈ pieces
    · rw [if_pos hk, if_neg (ne_of_mem_of_not_mem hk hnot), if_pos (List.mem_cons_of_mem piece hk)]
    · rw [if_neg hk]
      by_cases heq : k = piece
      · rw [if_pos heq, if_pos (heq ▸ List.mem_cons_self)]
      · rw [if_neg heq, if_neg (List.not_mem_cons_of_ne_of_not_mem heq hk)]

theorem overlap_eq_zero {span : ℕ × ℕ} {piece : ℕ} (hend : span.2 ≤ layout.totalLength)
    (h : piece ∉ layout.touched span) : layout.overlap span piece = 0 := by
  unfold overlap
  rw [Finset.card_eq_zero, Finset.eq_empty_iff_forall_notMem]
  intro i hi
  obtain ⟨hspan, hpiece⟩ := Finset.mem_inter.mp hi
  obtain ⟨hlow, hhigh⟩ := Finset.mem_Ico.mp hspan
  have hdiv := (mem_pieceBytes (hhigh.trans_le hend)).mp hpiece
  apply h
  unfold touched
  have hfirst : span.1 / layout.pieceLength ≤ i / layout.pieceLength := Nat.div_le_div_right hlow
  have hlast : i / layout.pieceLength ≤ (span.2 - 1) / layout.pieceLength :=
    Nat.div_le_div_right (by omega)
  rw [List.mem_range'_1]
  omega

theorem lt_pieceCount_of_touched {span : ℕ × ℕ} {piece : ℕ} (hspan : span.1 < span.2)
    (hend : span.2 ≤ layout.totalLength) (h : piece ∈ layout.touched span) :
    piece < layout.pieceCount := by
  unfold touched at h
  rw [List.mem_range'_1] at h
  have hcount := layout.div_lt_pieceCount (i := span.2 - 1) (by omega)
  omega

theorem addSpan_eq {span : ℕ × ℕ} {f : ℕ → ℕ} (hspan : span.1 < span.2)
    (hend : span.2 ≤ layout.totalLength)
    (hpieces : ∀ k ∈ layout.touched span, (k + 1) * layout.pieceLength < 2 ^ 64)
    (hsize : ∀ k, f k + layout.overlap span k < 2 ^ 64) :
    layout.addSpan ((List.range layout.pieceCount).map f) span =
      some ((List.range layout.pieceCount).map fun k => f k + layout.overlap span k) := by
  have hnodup : (layout.touched span).Nodup := List.nodup_range'
  unfold addSpan
  rw [foldlM_addPiece hnodup (fun k hk =>
    ⟨lt_pieceCount_of_touched hspan hend hk, hpieces k hk⟩) fun k _ => hsize k]
  congr 1
  apply List.map_congr_left
  intro k _
  split
  · rfl
  · next hk => rw [overlap_eq_zero hend hk, Nat.add_zero]

/-- What spans hold of a piece, one span after the other. -/
def covered (layout : TorrentLayout) (spans : List (ℕ × ℕ)) (piece : ℕ) : ℕ :=
  (spans.map fun span => layout.overlap span piece).sum

theorem covered_eq_card {spans : List (ℕ × ℕ)} (h : Canonical spans) (piece : ℕ) :
    layout.covered spans piece = (cover spans ∩ layout.pieceBytes piece).card := by
  induction spans with
  | nil => rfl
  | cons span spans ih =>
    obtain ⟨hspan, hlater, hrest⟩ := canonical_cons.mp h
    have hdisjoint : Disjoint (Finset.Ico span.1 span.2 ∩ layout.pieceBytes piece)
        (cover spans ∩ layout.pieceBytes piece) := by
      rw [Finset.disjoint_left]
      intro i hi hi'
      obtain ⟨q, hq, hlow, -⟩ := mem_cover.mp (Finset.mem_inter.mp hi').1
      exact absurd (hlater q hq) (not_lt.mpr
        (hlow.trans (Finset.mem_Ico.mp (Finset.mem_inter.mp hi).1).2.le))
    rw [cover_cons, Finset.union_inter_distrib_right, Finset.card_union_of_disjoint hdisjoint,
      ← ih hrest]
    rfl

theorem foldlM_addSpan {spans : List (ℕ × ℕ)} {f : ℕ → ℕ}
    (hspans : ∀ span ∈ spans, span.1 < span.2 ∧ span.2 ≤ layout.totalLength ∧
      ∀ k ∈ layout.touched span, (k + 1) * layout.pieceLength < 2 ^ 64)
    (hsize : ∀ k, f k + layout.covered spans k < 2 ^ 64) :
    spans.foldlM layout.addSpan ((List.range layout.pieceCount).map f) =
      some ((List.range layout.pieceCount).map fun k => f k + layout.covered spans k) := by
  induction spans generalizing f with
  | nil => rfl
  | cons span spans ih =>
    obtain ⟨⟨hspan, hend, hpieces⟩, hrest⟩ := List.forall_mem_cons.mp hspans
    have hcons : ∀ k, layout.covered (span :: spans) k = layout.overlap span k + layout.covered spans k :=
      fun k => List.sum_cons
    have hfirst : ∀ k, f k + layout.overlap span k < 2 ^ 64 := fun k => by
      have hk := hsize k
      rw [hcons] at hk
      omega
    rw [List.foldlM_cons, addSpan_eq hspan hend hpieces hfirst, Option.bind_eq_bind, Option.bind_some,
      ih hrest fun k => by rw [Nat.add_assoc, ← hcons]; exact hsize k]
    congr 1
    apply List.map_congr_left
    intro k _
    rw [hcons, Nat.add_assoc]

end TorrentLayout

/-! ### The report -/

namespace Cache

open TorrentLayout

variable {e : Entry}

/-- All that was demanded lies in the torrent. -/
def Entry.Within (e : Entry) : Prop := ∀ i ∈ e.demanded.bytes, i < e.layout.totalLength

/-- How much of a piece was demanded. -/
def Entry.demandOf (e : Entry) (piece : ℕ) : ℕ := (e.demanded.bytes ∩ e.layout.pieceBytes piece).card

/-- The end of every piece of which something was demanded is a machine number. -/
def Entry.EndsFit (e : Entry) : Prop :=
  ∀ i ∈ e.demanded.bytes, (i / e.layout.pieceLength + 1) * e.layout.pieceLength < 2 ^ 64

theorem mem_bytes_of_span (hspan : span ∈ e.demanded.spans) {i : ℕ} (hlow : span.1 ≤ i)
    (hhigh : i < span.2) : i ∈ e.demanded.bytes := mem_cover.mpr ⟨span, hspan, hlow, hhigh⟩

/-- A piece that a span touches holds a byte of it. -/
theorem exists_mem_of_touched {layout : TorrentLayout} {span : ℕ × ℕ} {piece : ℕ}
    (hspan : span.1 < span.2) (h : piece ∈ layout.touched span) :
    ∃ i, span.1 ≤ i ∧ i < span.2 ∧ i / layout.pieceLength = piece := by
  unfold touched at h
  rw [List.mem_range'_1] at h
  have hpos := layout.pieceLength_pos
  have hlast : piece ≤ (span.2 - 1) / layout.pieceLength := by omega
  rw [Nat.le_div_iff_mul_le hpos] at hlast
  rcases le_or_gt span.1 (piece * layout.pieceLength) with hstart | hstart
  · exact ⟨piece * layout.pieceLength, hstart, by omega, Nat.mul_div_cancel piece hpos⟩
  · have hle : piece ≤ span.1 / layout.pieceLength := (Nat.le_div_iff_mul_le hpos).mpr hstart.le
    exact ⟨span.1, le_rfl, hspan, le_antisymm h.1 hle⟩

theorem sizes_eq (hwithin : e.Within) (hends : e.EndsFit) :
    e.demanded.spans.foldlM e.layout.addSpan (List.replicate e.layout.pieceCount 0) =
      some ((List.range e.layout.pieceCount).map e.demandOf) := by
  have hcanonical : Canonical e.demanded.spans := e.demanded.valid.canonical
  have hcovered : ∀ k, e.layout.covered e.demanded.spans k = e.demandOf k := fun k =>
    covered_eq_card hcanonical k
  have hzero : List.replicate e.layout.pieceCount 0 =
      (List.range e.layout.pieceCount).map fun _ => 0 := by
    rw [List.map_const', List.length_range]
  have hspans : ∀ span ∈ e.demanded.spans, span.1 < span.2 ∧ span.2 ≤ e.layout.totalLength ∧
      ∀ k ∈ e.layout.touched span, (k + 1) * e.layout.pieceLength < 2 ^ 64 := by
    intro span hspan
    have hpos := hcanonical.pos span hspan
    have hlast := hwithin (span.2 - 1) (mem_bytes_of_span hspan (by omega) (by omega))
    refine ⟨hpos, by omega, fun k hk => ?_⟩
    obtain ⟨i, hlow, hhigh, hdiv⟩ := exists_mem_of_touched hpos hk
    rw [← hdiv]
    exact hends i (mem_bytes_of_span hspan hlow hhigh)
  have hsize : ∀ k, 0 + e.layout.covered e.demanded.spans k < 2 ^ 64 := by
    intro k
    rw [Nat.zero_add, hcovered]
    have hle : e.demandOf k ≤ e.demanded.bytes.card := Finset.card_le_card Finset.inter_subset_left
    have htotal : e.demanded.bytes.card ≤ e.layout.totalLength := by
      rw [← Finset.card_range e.layout.totalLength]
      exact Finset.card_le_card fun i hi => Finset.mem_range.mpr (hwithin i hi)
    exact (hle.trans htotal).trans_lt e.layout.totalLength_lt
  rw [hzero, foldlM_addSpan hspans hsize]
  congr 1
  apply List.map_congr_left
  intro k _
  rw [Nat.zero_add, hcovered]

theorem zipIdx_map_range (f : ℕ → ℕ) (n : ℕ) :
    ((List.range n).map f).zipIdx = (List.range n).map fun k => (f k, k) := by
  apply List.ext_getElem
  · rw [List.length_zipIdx, List.length_map, List.length_map]
  · intro k hk hk'
    rw [List.getElem_zipIdx, List.getElem_map, List.getElem_map, List.getElem_range, Nat.zero_add]

/-- The report lists the pieces of which something was demanded, each with how much. -/
theorem demandedPieces_eq (hwithin : e.Within) (hends : e.EndsFit) :
    demandedPieces e = some (((List.range e.layout.pieceCount).filter fun k => e.demandOf k ≠ 0).map
      fun k => ⟨PieceIndex.ofPosition k, e.demandOf k, e.demandOf k = e.layout.actualLength k⟩) := by
  unfold demandedPieces
  rw [sizes_eq hwithin hends, Option.bind_eq_bind, Option.bind_some, zipIdx_map_range,
    List.filter_map, Option.mapM_eq_map (g := fun p : ℕ × ℕ =>
      (⟨PieceIndex.ofPosition p.2, p.1, p.1 = e.layout.actualLength p.2⟩ : DemandedPiece)),
    List.map_map]
  · rfl
  · intro p hp
    obtain ⟨k, hk, rfl⟩ := List.mem_map.mp hp
    exact report_eq (List.mem_range.mp (List.mem_of_mem_filter hk))

theorem foldlM_eq_none {α β : Type} {f : β → α → Option β} {l : List α} {a : α} (ha : a ∈ l)
    (hf : ∀ b, f b a = none) (b : β) : l.foldlM f b = none := by
  induction l generalizing b with
  | nil => cases ha
  | cons c l ih =>
    rw [List.foldlM_cons]
    rcases List.mem_cons.mp ha with rfl | ha
    · rw [hf b]
      rfl
    · cases f b c with
      | none => rfl
      | some b' => exact ih ha b'

/-- Where a byte was demanded of a piece whose end is no machine number, the report overflows. -/
theorem demandedPieces_eq_none (h : ¬e.EndsFit) : demandedPieces e = none := by
  unfold Entry.EndsFit at h
  push Not at h
  obtain ⟨i, hi, hend⟩ := h
  obtain ⟨span, hspan, hlow, hhigh⟩ := mem_cover.mp hi
  have htouched : i / e.layout.pieceLength ∈ e.layout.touched span := by
    have hfirst : span.1 / e.layout.pieceLength ≤ i / e.layout.pieceLength := Nat.div_le_div_right hlow
    have hlast : i / e.layout.pieceLength ≤ (span.2 - 1) / e.layout.pieceLength :=
      Nat.div_le_div_right (by omega)
    unfold touched
    rw [List.mem_range'_1]
    omega
  have hnone : ∀ sizes, e.layout.addSpan sizes span = none :=
    foldlM_eq_none htouched (addPiece_eq_none hend)
  unfold demandedPieces
  rw [foldlM_eq_none hspan hnone]
  rfl

end Cache

end Rustorr
