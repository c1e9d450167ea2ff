import Rustorr.Cache.Manifest
import Mathlib.Data.Option.Basic

/-! What an accepted manifest proves, for every text and every directory. -/

namespace Rustorr

namespace Extents

/-- A listed span as a pair of numbers. -/
def spanVal (span : U64 × U64) : ℕ × ℕ := (span.1, span.2)

def listedBytes (spans : List (U64 × U64)) : Finset ℕ := Spans.cover (spans.map spanVal)

/-- An accepted span is new: none of its bytes was listed before. -/
theorem addSpan_eq_some {x y : Extents} {span : U64 × U64} (h : x.addSpan span = some y) :
    (span.1 : ℕ) ≤ span.2 ∧ Disjoint x.bytes (Finset.Ico (span.1 : ℕ) span.2) ∧
      y.bytes = x.bytes ∪ Finset.Ico (span.1 : ℕ) span.2 := by
  unfold addSpan at h
  cases hr : ByteRange.new span.1 span.2 with
  | error e => simp [hr, Except.toOption] at h
  | ok range =>
    obtain ⟨h1, h2⟩ := ByteRange.new_eq_ok hr
    have hbytes : range.bytes = Finset.Ico (span.1 : ℕ) span.2 := by
      rw [ByteRange.bytes, h1, h2]
    simp only [hr, Except.toOption, Option.bind_eq_bind, Option.bind_some] at h
    obtain ⟨_, hadded, h⟩ := Option.bind_eq_some_iff.mp h
    have hadded := (Option.guard_eq_some' _).mp hadded
    cases h
    refine ⟨h1 ▸ h2 ▸ range.ordered, ?_, by rw [bytes_insert, hbytes]⟩
    rw [added_insert, hbytes, ← Nat.card_Ico] at hadded
    have hsub := Finset.eq_of_subset_of_card_le Finset.sdiff_subset hadded.ge
    exact (Finset.sdiff_eq_self_iff_disjoint.mp hsub).symm

theorem foldlM_addSpan {spans : List (U64 × U64)} {x y : Extents}
    (h : spans.foldlM addSpan x = some y) :
    y.bytes = x.bytes ∪ listedBytes spans ∧
      (∀ span ∈ spans, (span.1 : ℕ) ≤ span.2 ∧ Disjoint x.bytes (Finset.Ico (span.1 : ℕ) span.2)) ∧
      spans.Pairwise fun a b => Disjoint (Finset.Ico (a.1 : ℕ) a.2) (Finset.Ico (b.1 : ℕ) b.2) := by
  induction spans generalizing x with
  | nil => cases h; simp [listedBytes]
  | cons span spans ih =>
    rw [List.foldlM_cons] at h
    obtain ⟨z, hz, h⟩ := Option.bind_eq_some_iff.mp h
    obtain ⟨hle, hdis, hbytes⟩ := addSpan_eq_some hz
    obtain ⟨hy, hall, hpair⟩ := ih h
    refine ⟨?_, ?_, List.pairwise_cons.mpr ⟨fun b hb => ?_, hpair⟩⟩
    · rw [hy, hbytes, Finset.union_assoc]
      rfl
    · intro b hb
      rcases List.mem_cons.mp hb with rfl | hb
      · exact ⟨hle, hdis⟩
      · exact ⟨(hall b hb).1, Finset.disjoint_of_subset_left (by simp [hbytes]) (hall b hb).2⟩
    · exact Finset.disjoint_of_subset_left (by simp [hbytes]) (hall b hb).2

/-- The recovered record holds the listed bytes, none of which is listed twice. -/
theorem fromSpans_eq_some {spans : List (U64 × U64)} {x : Extents} (h : fromSpans spans = some x) :
    x.bytes = listedBytes spans ∧ (∀ span ∈ spans, (span.1 : ℕ) ≤ span.2) ∧
      spans.Pairwise fun a b => Disjoint (Finset.Ico (a.1 : ℕ) a.2) (Finset.Ico (b.1 : ℕ) b.2) := by
  obtain ⟨h1, h2, h3⟩ := foldlM_addSpan h
  exact ⟨by simpa using h1, fun span hs => (h2 span hs).1, h3⟩

end Extents

namespace Disk

/-- The spans a manifest text lists for the file at `index`. -/
def Listed (text : List Char) (index : ℕ) (spans : List (U64 × U64)) : Prop :=
  ∃ values raw, parseValues text = some values ∧ values.lookup (extentsKey index) = some raw ∧
    parseSpans raw = some spans

/-- The pieces a manifest text lists as completed. -/
def ListedPieces (text : List Char) (pieces : List U64) : Prop :=
  ∃ values raw, parseValues text = some values ∧ values.lookup "pieces".toList = some raw ∧
    parseNumbers raw = some pieces

theorem Values.remove_eq_some {values values' : Values} {key value : List Char}
    (h : values.remove key = some (value, values')) :
    values.lookup key = some value ∧ values' = values.erase key := by
  obtain ⟨v, hv, heq⟩ := Option.map_eq_some_iff.mp h
  cases heq
  exact ⟨hv, rfl⟩

theorem Values.lookup_of_erase {values : Values} {key k value : List Char}
    (h : (values.erase key).lookup k = some value) : values.lookup k = some value := by
  by_cases hk : k = key
  · subst hk
    simp [AList.lookup_erase] at h
  · rwa [AList.lookup_erase_ne hk] at h

/-- The checks `restore` makes on the record of one file. -/
structure FileOk (dir : Dir) (layout : TorrentLayout) (index : ℕ) (x : Extents) : Prop where
  within : ∃ len, layout.fileLength (FileIndex.ofPosition index) = some len ∧
    ∀ span ∈ x.spans, span.2 ≤ len
  stored : ∀ span ∈ x.spans, ∃ bytes, dir.files index = some bytes ∧ span.2 ≤ bytes.length

theorem checkFile_eq_some {dir : Dir} {faults : Faults} {index : ℕ} {x : Extents}
    (h : checkFile dir faults index x = some ()) :
    ∀ span ∈ x.spans, ∃ bytes, dir.files index = some bytes ∧ span.2 ≤ bytes.length := by
  intro span hspan
  have hpos : 0 < x.total := by
    rw [x.total_eq_card, Finset.card_pos]
    exact ⟨span.1, Spans.mem_cover.mpr
      ⟨span, hspan, le_rfl, x.valid.canonical.pos span hspan⟩⟩
  simp only [checkFile, hpos, if_true, fileLen] at h
  obtain ⟨len, hlen, h⟩ := Option.bind_eq_some_iff.mp h
  split at hlen
  · cases hlen
  · obtain ⟨bytes, hbytes, rfl⟩ := Option.map_eq_some_iff.mp hlen
    exact ⟨bytes, hbytes, (Option.guard_eq_some' _).mp h span hspan⟩

theorem restoreFile_eq_some {dir : Dir} {layout : TorrentLayout} {faults : Faults}
    {st st' : Progress} {index : ℕ} (h : restoreFile dir layout faults st index = some st') :
    ∃ raw spans x, st.values.lookup (extentsKey index) = some raw ∧ parseSpans raw = some spans ∧
      Extents.fromSpans spans = some x ∧ FileOk dir layout index x ∧
      st.stored + x.total < 2 ^ 64 ∧
      st' = ⟨st.values.erase (extentsKey index), st.extents ++ [x], st.stored + x.total⟩ := by
  unfold restoreFile at h
  obtain ⟨⟨raw, values⟩, hraw, h⟩ := Option.bind_eq_some_iff.mp h
  obtain ⟨spans, hspans, h⟩ := Option.bind_eq_some_iff.mp h
  obtain ⟨x, hx, h⟩ := Option.bind_eq_some_iff.mp h
  obtain ⟨len, hlen, h⟩ := Option.bind_eq_some_iff.mp h
  obtain ⟨_, hwithin, h⟩ := Option.bind_eq_some_iff.mp h
  obtain ⟨_, hcheck, h⟩ := Option.bind_eq_some_iff.mp h
  obtain ⟨stored, hstored, h⟩ := Option.bind_eq_some_iff.mp h
  cases h
  obtain ⟨hlookup, rfl⟩ := Values.remove_eq_some hraw
  obtain ⟨hlt, rfl⟩ := U64.checkedAdd_eq_some.mp hstored
  exact ⟨raw, spans, x, hlookup, hspans, hx, ⟨⟨len, hlen, (Option.guard_eq_some' _).mp hwithin⟩,
    checkFile_eq_some hcheck⟩, hlt, rfl⟩

theorem restoreFiles_eq_some {dir : Dir} {layout : TorrentLayout} {faults : Faults}
    {indexes : List ℕ} {st st' : Progress}
    (h : indexes.foldlM (restoreFile dir layout faults) st = some st') :
    ∃ xs, st'.extents = st.extents ++ xs ∧ xs.length = indexes.length ∧
      st'.stored = st.stored + (xs.map Extents.total).sum ∧
      ∀ p ∈ indexes.zip xs, FileOk dir layout p.1 p.2 ∧
        ∃ raw spans, st.values.lookup (extentsKey p.1) = some raw ∧
          parseSpans raw = some spans ∧ Extents.fromSpans spans = some p.2 := by
  induction indexes generalizing st with
  | nil => cases h; exact ⟨[], by simp⟩
  | cons index indexes ih =>
    rw [List.foldlM_cons] at h
    obtain ⟨st1, h1, h⟩ := Option.bind_eq_some_iff.mp h
    obtain ⟨raw, spans, x, hlookup, hspans, hx, hok, -, rfl⟩ := restoreFile_eq_some h1
    obtain ⟨xs, hext, hlen, hstored, hall⟩ := ih h
    refine ⟨x :: xs, by simp [hext], by simp [hlen], by simp [hstored, Nat.add_assoc], ?_⟩
    intro p hp
    rw [List.zip_cons_cons] at hp
    rcases List.mem_cons.mp hp with rfl | hp
    · exact ⟨hok, raw, spans, hlookup, hspans, hx⟩
    · obtain ⟨hok', raw', spans', hlookup', rest⟩ := hall p hp
      exact ⟨hok', raw', spans', Values.lookup_of_erase hlookup', rest⟩

theorem markPiece_eq_some {flags marked : List Bool} {piece : U64} (h : markPiece flags piece = some marked) :
    flags[(piece : ℕ)]? = some false ∧ marked = flags.set piece true := by
  unfold markPiece at h
  split at h
  · exact ⟨by assumption, by simpa using h.symm⟩
  · cases h

theorem markPieces_eq_some {pieces : List U64} {flags marked : List Bool}
    (h : pieces.foldlM markPiece flags = some marked) :
    marked.length = flags.length ∧ pieces.Nodup ∧ (∀ p ∈ pieces, flags[(p : ℕ)]? = some false) ∧
      ∀ i, marked[i]? = some true ↔ flags[i]? = some true ∨ ∃ p ∈ pieces, (p : ℕ) = i := by
  induction pieces generalizing flags with
  | nil => cases h; simp
  | cons piece pieces ih =>
    rw [List.foldlM_cons] at h
    obtain ⟨next, h1, h⟩ := Option.bind_eq_some_iff.mp h
    obtain ⟨hfalse, rfl⟩ := markPiece_eq_some h1
    obtain ⟨hlen, hnodup, hall, hiff⟩ := ih h
    have hlt : (piece : ℕ) < flags.length := (List.getElem?_eq_some_iff.mp hfalse).1
    have hne : ∀ p ∈ pieces, (p : ℕ) ≠ piece := fun p hp he => by
      have := hall p hp
      rw [he, List.getElem?_set_self hlt] at this
      cases this
    refine ⟨by simp [hlen], List.nodup_cons.mpr ⟨fun hp => hne _ hp rfl, hnodup⟩, ?_, ?_⟩
    · intro p hp
      rcases List.mem_cons.mp hp with rfl | hp
      · exact hfalse
      · simpa [List.getElem?_set_ne (hne p hp).symm] using hall p hp
    · intro i
      rw [hiff]
      by_cases hi : (piece : ℕ) = i
      · subst hi
        simp [List.getElem?_set_self hlt]
      · simp [List.getElem?_set_ne hi, hi]

/-- The text was written for a layout with this piece length and these files. -/
structure Header (layout : TorrentLayout) (text : List Char) : Prop where
  pieceLength : ∃ values raw length, parseValues text = some values ∧
    values.lookup "piece_length".toList = some raw ∧ Text.parseU64 raw = some length ∧
    (length : ℕ) = layout.pieceLength
  files : ∃ values raw files, parseValues text = some values ∧
    values.lookup "files".toList = some raw ∧ parseNumbers raw = some files ∧
    files.map Fin.val = listedLengths layout

/-- Everything that `restore` has checked when it accepts. -/
structure Accepted (dir : Dir) (layout : TorrentLayout) (text : List Char)
    (extents : List Extents) (completed : List Bool) (stored : ℕ) : Prop where
  header : Header layout text
  length_extents : extents.length = layout.fileCount
  length_completed : completed.length = layout.pieceCount
  file_ok : ∀ i x, extents[i]? = some x → FileOk dir layout i x
  listed : ∀ i x, extents[i]? = some x → ∃ spans, Listed text i spans ∧
    x.bytes = Extents.listedBytes spans ∧ (∀ span ∈ spans, (span.1 : ℕ) ≤ span.2) ∧
    spans.Pairwise fun a b => Disjoint (Finset.Ico (a.1 : ℕ) a.2) (Finset.Ico (b.1 : ℕ) b.2)
  stored_eq : stored = (extents.map Extents.total).sum
  pieces : ∃ pieces, ListedPieces text pieces ∧ pieces.Nodup ∧
    (∀ p ∈ pieces, (p : ℕ) < layout.pieceCount) ∧
    ∀ i, completed[i]? = some true ↔ ∃ p ∈ pieces, (p : ℕ) = i

theorem restore_eq_some {dir : Option Dir} {layout : TorrentLayout} {faults : Faults}
    {extents : List Extents} {completed : List Bool} {stored : ℕ}
    (h : restore dir layout faults = some (extents, completed, stored)) :
    ∃ d text, dir = some d ∧ d.manifest = some text ∧
      Accepted d layout text extents completed stored := by
  unfold restore at h
  obtain ⟨⟨d, text⟩, hread, h⟩ := Option.bind_eq_some_iff.mp h
  obtain ⟨values, hvalues, h⟩ := Option.bind_eq_some_iff.mp h
  obtain ⟨⟨version, v1⟩, hversion, h⟩ := Option.bind_eq_some_iff.mp h
  obtain ⟨_, -, h⟩ := Option.bind_eq_some_iff.mp h
  obtain ⟨⟨pl, v2⟩, hpl, h⟩ := Option.bind_eq_some_iff.mp h
  obtain ⟨pieceLength, hlength, h⟩ := Option.bind_eq_some_iff.mp h
  obtain ⟨_, hlengthEq, h⟩ := Option.bind_eq_some_iff.mp h
  obtain ⟨⟨files, v3⟩, hfiles, h⟩ := Option.bind_eq_some_iff.mp h
  obtain ⟨lengths, hlengths, h⟩ := Option.bind_eq_some_iff.mp h
  obtain ⟨_, hlengthsEq, h⟩ := Option.bind_eq_some_iff.mp h
  obtain ⟨⟨rawPieces, v4⟩, hrawPieces, h⟩ := Option.bind_eq_some_iff.mp h
  obtain ⟨pieces, hpieces, h⟩ := Option.bind_eq_some_iff.mp h
  obtain ⟨c, hc, h⟩ := Option.bind_eq_some_iff.mp h
  obtain ⟨st, hst, h⟩ := Option.bind_eq_some_iff.mp h
  obtain ⟨_, -, h⟩ := Option.bind_eq_some_iff.mp h
  cases h
  obtain ⟨-, rfl⟩ := Values.remove_eq_some hversion
  obtain ⟨hplLookup, rfl⟩ := Values.remove_eq_some hpl
  obtain ⟨hfilesLookup, rfl⟩ := Values.remove_eq_some hfiles
  obtain ⟨hlookup, rfl⟩ := Values.remove_eq_some hrawPieces
  obtain ⟨hlen, hnodup, hrange, hmarked⟩ := markPieces_eq_some hc
  obtain ⟨xs, hext, hxs, hstored, hall⟩ := restoreFiles_eq_some hst
  have hdir : dir = some d ∧ d.manifest = some text := by
    obtain ⟨d', hd, hread⟩ := Option.bind_eq_some_iff.mp hread
    obtain ⟨_, -, hread⟩ := Option.bind_eq_some_iff.mp hread
    obtain ⟨text', htext, hread⟩ := Option.bind_eq_some_iff.mp hread
    cases hread
    exact ⟨hd, htext⟩
  have hzip : ∀ i x, st.extents[i]? = some x → (i, x) ∈ (List.range layout.fileCount).zip xs := by
    intro i x hi
    rw [hext, List.nil_append] at hi
    have hlt : i < layout.fileCount := by
      have := (List.getElem?_eq_some_iff.mp hi).1
      simpa [hxs] using this
    refine List.mem_of_getElem? (i := i) ?_
    rw [List.getElem?_zip_eq_some]
    exact ⟨List.getElem?_range hlt, hi⟩
  refine ⟨d, text, hdir.1, hdir.2, ⟨⟨⟨values, pl, pieceLength, hvalues, ?_, hlength, ?_⟩,
    ⟨values, files, lengths, hvalues, ?_, hlengths, ?_⟩⟩, ?_, ?_, ?_, ?_, ?_, ?_⟩⟩
  · exact Values.lookup_of_erase hplLookup
  · exact (Option.guard_eq_some' _).mp hlengthEq
  · exact Values.lookup_of_erase (Values.lookup_of_erase hfilesLookup)
  · exact (Option.guard_eq_some' _).mp hlengthsEq
  · simp [hext, hxs]
  · simp [hlen]
  · exact fun i x hi => (hall _ (hzip i x hi)).1
  · intro i x hi
    obtain ⟨-, raw, spans, h1, h2, h3⟩ := hall _ (hzip i x hi)
    have h1 := Values.lookup_of_erase (Values.lookup_of_erase (Values.lookup_of_erase
      (Values.lookup_of_erase h1)))
    exact ⟨spans, ⟨values, raw, hvalues, h1, h2⟩, Extents.fromSpans_eq_some h3⟩
  · simp [hext, hstored]
  · refine ⟨pieces, ⟨values, rawPieces, hvalues, ?_, hpieces⟩, hnodup, fun p hp => ?_, fun i => ?_⟩
    · exact Values.lookup_of_erase (Values.lookup_of_erase (Values.lookup_of_erase hlookup))
    · simpa using (List.getElem?_eq_some_iff.mp (hrange p hp)).1
    · rw [hmarked]
      simp [List.getElem?_replicate]

theorem length_extents_of_restore {dir : Option Dir} {layout : TorrentLayout} {faults : Faults}
    {extents : List Extents} {completed : List Bool} {stored : ℕ}
    (h : restore dir layout faults = some (extents, completed, stored)) :
    extents.length = layout.fileCount := by
  obtain ⟨_, _, -, -, haccepted⟩ := restore_eq_some h
  exact haccepted.length_extents

theorem length_completed_of_restore {dir : Option Dir} {layout : TorrentLayout} {faults : Faults}
    {extents : List Extents} {completed : List Bool} {stored : ℕ}
    (h : restore dir layout faults = some (extents, completed, stored)) :
    completed.length = layout.pieceCount := by
  obtain ⟨_, _, -, -, haccepted⟩ := restore_eq_some h
  exact haccepted.length_completed

/-- Per file the manifest lists its spans in canonical form. -/
def RecordCanonical (layout : TorrentLayout) (text : List Char) : Prop :=
  ∀ i < layout.fileCount, ∀ spans, Listed text i spans →
    Spans.Canonical (spans.map Extents.spanVal)

/-- Every span ends within the file's layout length and within the file on disk. -/
def SpansWithin (dir : Dir) (layout : TorrentLayout) (extents : List Extents) : Prop :=
  ∀ i x, extents[i]? = some x → ∀ span ∈ x.spans,
    (∃ len, layout.fileLengths[i]? = some len ∧ span.2 ≤ len) ∧
      ∃ bytes, dir.files i = some bytes ∧ span.2 ≤ bytes.length

/-- Every byte of a completed piece is held, in whichever file it lies. -/
def PiecesCovered (layout : TorrentLayout) (extents : List Extents) (completed : List Bool) : Prop :=
  ∀ piece, completed[piece]? = some true → ∀ i len, layout.fileLengths[i]? = some len →
    ∀ byte < len, ((layout.fileLengths.take i).sum + byte) / layout.pieceLength = piece →
      ∃ x, extents[i]? = some x ∧ byte ∈ x.bytes

structure RecoverySound (dir : Dir) (layout : TorrentLayout) (text : List Char)
    (extents : List Extents) (completed : List Bool) (stored : ℕ) : Prop where
  canonical : RecordCanonical layout text
  within : SpansWithin dir layout extents
  stored_eq : stored = (extents.map Extents.total).sum
  covered : PiecesCovered layout extents completed

/-- An accepted manifest accounts for exactly the bytes it lists, each of them
once; its spans end within the length of the file their position names as a
`u32` and within the data on disk; its pieces are in range and listed once. -/
theorem restore_sound {dir : Dir} {layout : TorrentLayout} {faults : Faults} {text : List Char}
    {extents : List Extents} {completed : List Bool} {stored : ℕ}
    (htext : dir.manifest = some text)
    (h : restore (some dir) layout faults = some (extents, completed, stored)) :
    extents.length = layout.fileCount ∧
    (∀ i x, extents[i]? = some x → Spans.Canonical x.spans ∧
      (∃ spans, Listed text i spans ∧ x.bytes = Extents.listedBytes spans ∧
        spans.Pairwise fun a b => Disjoint (Finset.Ico (a.1 : ℕ) a.2) (Finset.Ico (b.1 : ℕ) b.2)) ∧
      ∀ span ∈ x.spans, (∃ len, layout.fileLengths[i % 2 ^ 32]? = some len ∧ span.2 ≤ len) ∧
        ∃ bytes, dir.files i = some bytes ∧ span.2 ≤ bytes.length) ∧
    stored = (extents.map Extents.total).sum ∧
    ∃ pieces, ListedPieces text pieces ∧ pieces.Nodup ∧
      (∀ p ∈ pieces, (p : ℕ) < layout.pieceCount) ∧
      ∀ i, completed[i]? = some true ↔ ∃ p ∈ pieces, (p : ℕ) = i := by
  obtain ⟨d, t, hd, ht, haccepted⟩ := restore_eq_some h
  obtain rfl := Option.some.inj hd
  obtain rfl : t = text := Option.some.inj (ht.symm.trans htext)
  refine ⟨haccepted.length_extents, fun i x hi => ⟨x.valid.canonical, ?_, fun span hs => ⟨?_, ?_⟩⟩,
    haccepted.stored_eq, haccepted.pieces⟩
  · obtain ⟨spans, h1, h2, -, h4⟩ := haccepted.listed i x hi
    exact ⟨spans, h1, h2, h4⟩
  · obtain ⟨len, hlen, hall⟩ := (haccepted.file_ok i x hi).within
    exact ⟨len, hlen, hall span hs⟩
  · exact (haccepted.file_ok i x hi).stored span hs

/-- One file of one piece of four bytes. -/
def oneFileLayout : TorrentLayout :=
  ⟨4, [4], 4, 1, by decide, by decide, by decide, by decide, by decide, by decide⟩

/-- Two bytes on disk, listed as two touching spans of a completed piece. -/
def touchingDir : Dir where
  manifest := some "version=1\npiece_length=4\nfiles=4\npieces=0\nextents.0=0-1,1-2\n".toList
  temporary := none
  files := fun i => if i = 0 then some [7, 7] else none

theorem restore_touchingDir :
    (restore (some touchingDir) oneFileLayout .none).map
      (fun r => (r.1.map Extents.spans, r.2.1, r.2.2)) = some ([[(0, 2)]], [true], 2) := by
  decide +kernel

theorem restore_sound_touchingDir : ∃ text extents completed stored,
    touchingDir.manifest = some text ∧
    restore (some touchingDir) oneFileLayout .none = some (extents, completed, stored) ∧
    stored = (extents.map Extents.total).sum := by
  obtain ⟨⟨extents, completed, stored⟩, h, -⟩ := Option.map_eq_some_iff.mp restore_touchingDir
  exact ⟨_, extents, completed, stored, rfl, h, (restore_sound rfl h).2.2.1⟩

theorem listed_touchingDir :
    ((touchingDir.manifest.bind parseValues).bind fun values =>
      (values.lookup (extentsKey 0)).bind parseSpans) = some [(0, 1), (1, 2)] := by
  decide +kernel

/-- The text above is accepted although its spans touch and the piece it calls
completed lacks its last two bytes. -/
theorem restore_accepts_touching : ∃ text extents completed stored,
    touchingDir.manifest = some text ∧
    restore (some touchingDir) oneFileLayout .none = some (extents, completed, stored) ∧
    ¬ RecordCanonical oneFileLayout text ∧ ¬ PiecesCovered oneFileLayout extents completed ∧
    ¬ RecoverySound touchingDir oneFileLayout text extents completed stored := by
  obtain ⟨⟨extents, completed, stored⟩, h, heq⟩ := Option.map_eq_some_iff.mp restore_touchingDir
  simp only [Prod.mk.injEq] at heq
  obtain ⟨hspans, hcompleted, -⟩ := heq
  obtain ⟨values, hvalues, hlisted⟩ := Option.bind_eq_some_iff.mp listed_touchingDir
  obtain ⟨text, htext, hvalues⟩ := Option.bind_eq_some_iff.mp hvalues
  obtain ⟨raw, hraw, hparsed⟩ := Option.bind_eq_some_iff.mp hlisted
  have hcanonical : ¬ RecordCanonical oneFileLayout text := fun hc => by
    have hone := hc 0 (by decide) _ ⟨values, raw, hvalues, hraw, hparsed⟩
    have htouch := List.rel_of_pairwise_cons hone.sorted (List.mem_singleton.mpr rfl)
    exact absurd htouch (by decide)
  have hcovered : ¬ PiecesCovered oneFileLayout extents completed := fun hc => by
    obtain ⟨x, hx, hbyte⟩ := hc 0 (by simp [hcompleted]) 0 4 rfl 3 (by decide) (by decide)
    have hxs : x.spans = [(0, 2)] := by
      have := congrArg (·[0]?) hspans
      simpa [hx] using this
    simp [Extents.bytes, hxs] at hbyte
  exact ⟨text, extents, completed, stored, htext, h, hcanonical, hcovered,
    fun hsound => hcanonical hsound.canonical⟩

end Disk

end Rustorr
