import Rustorr.Cache.Disk
import Mathlib.Data.List.Nodup
import Mathlib.Algebra.Order.BigOperators.Group.List

/-! Reading back the text `manifest` writes: the encoder's lines, numbers and
spans are taken apart by `restore` into the record they came from. -/

namespace Rustorr

namespace Disk

open Text

/-! ### Keys and values -/

/-- `values` maps exactly the entries `es`, whose keys are all different. -/
structure Values.Holds (values : Values) (es : List (List Char × List Char)) : Prop where
  nodup : (es.map Prod.fst).Nodup
  lookup : ∀ key value, values.lookup key = some value ↔ (key, value) ∈ es

namespace Values.Holds

variable {values : Values} {es : List (List Char × List Char)} {key value : List Char}

theorem empty : Values.Holds ∅ [] := ⟨List.nodup_nil, by simp⟩

theorem notMem (h : values.Holds es) (hkey : key ∉ es.map Prod.fst) : key ∉ values := by
  intro hmem
  obtain ⟨v, hv⟩ := Option.isSome_iff_exists.mp (AList.lookup_isSome.mpr hmem)
  exact hkey (List.mem_map.mpr ⟨(key, v), (h.lookup key v).mp hv, rfl⟩)

theorem insert (h : values.Holds es) (hkey : key ∉ es.map Prod.fst) (value : List Char) :
    Values.Holds (values.insert key value) (es ++ [(key, value)]) where
  nodup := by
    rw [List.map_append, List.nodup_append]
    refine ⟨h.nodup, List.nodup_singleton _, fun a ha b hb hab => ?_⟩
    obtain rfl : b = key := List.mem_singleton.mp hb
    exact hkey (hab ▸ ha)
  lookup k v := by
    by_cases hk : k = key
    · subst hk
      have hnew : (k, v) ∉ es := fun hm => hkey (List.mem_map.mpr ⟨_, hm, rfl⟩)
      simp [AList.lookup_insert, hnew, eq_comm]
    · simp [AList.lookup_insert_ne hk, h.lookup, hk]

theorem remove (h : values.Holds ((key, value) :: es)) :
    values.remove key = some (value, values.erase key) ∧
      Values.Holds (values.erase key) es := by
  have hnotMem : key ∉ es.map Prod.fst := (List.nodup_cons.mp h.nodup).1
  refine ⟨by simp [Values.remove, (h.lookup key value).mpr (by simp)],
    (List.nodup_cons.mp h.nodup).2, fun k v => ?_⟩
  by_cases hk : k = key
  · subst hk
    have hnew : (k, v) ∉ es := fun hm => hnotMem (List.mem_map.mpr ⟨_, hm, rfl⟩)
    simp [AList.lookup_erase, hnew]
  · simp [AList.lookup_erase_ne hk, h.lookup, hk]

theorem entries_eq_nil (h : values.Holds []) : values.entries = [] := by
  refine List.eq_nil_iff_forall_not_mem.mpr fun s hs => ?_
  have := (h.lookup s.1 s.2).mp (AList.mem_lookup_iff.mpr hs)
  simp at this

end Values.Holds

theorem addLine_entry {values : Values} {es : List (List Char × List Char)}
    {key value : List Char} (h : values.Holds es) (hkey : key ∉ es.map Prod.fst)
    (hsep : '=' ∉ key) : addLine values (key ++ '=' :: value) = some (values.insert key value) := by
  simp [addLine, splitOnce_append hsep, h.notMem hkey, guard]

theorem foldlM_addLine {more : List (List Char × List Char)} {values : Values}
    {es : List (List Char × List Char)} (h : values.Holds es)
    (hnodup : ((es ++ more).map Prod.fst).Nodup) (hsep : ∀ p ∈ more, '=' ∉ p.1) :
    ∃ values', (more.map fun p => p.1 ++ '=' :: p.2).foldlM addLine values = some values' ∧
      values'.Holds (es ++ more) := by
  induction more generalizing values es with
  | nil => exact ⟨values, rfl, by simpa using h⟩
  | cons p more ih =>
    have hkey : p.1 ∉ es.map Prod.fst := fun hmem => by
      rw [List.map_append, List.map_cons, List.nodup_append] at hnodup
      exact hnodup.2.2 p.1 hmem p.1 (by simp) rfl
    obtain ⟨values', hrun, hholds⟩ := ih (h.insert hkey p.2)
      (by simpa using hnodup) fun q hq => hsep q (by simp [hq])
    refine ⟨values', ?_, by simpa using hholds⟩
    rw [List.map_cons, List.foldlM_cons, addLine_entry h hkey (hsep p (by simp)),
      Option.bind_eq_bind, Option.bind_some, hrun]

/-- Lines of entries without line breaks, with different keys, are read back. -/
theorem parseValues_unlines {es : List (List Char × List Char)} (hnodup : (es.map Prod.fst).Nodup)
    (hsep : ∀ p ∈ es, '=' ∉ p.1) (hline : ∀ p ∈ es, ∀ c ∈ ['\n', '\r'], c ∉ p.1 ∧ c ∉ p.2) :
    ∃ values, parseValues (unlines (es.map fun p => p.1 ++ '=' :: p.2)) = some values ∧
      values.Holds es := by
  have hno : ∀ c ∈ ['\n', '\r'], ∀ l ∈ es.map (fun p => p.1 ++ '=' :: p.2), c ∉ l := by
    intro c hc l hl
    obtain ⟨p, hp, rfl⟩ := List.mem_map.mp hl
    have hne : c ≠ '=' := by
      rcases List.mem_cons.mp hc with rfl | hc
      · decide
      · rw [List.mem_singleton.mp hc]
        decide
    simp [hline p hp c hc, hne]
  have hlines := lines_unlines (hno '\n' (by simp)) (hno '\r' (by simp))
  rw [parseValues, hlines]
  exact foldlM_addLine Values.Holds.empty (by simpa using hnodup) hsep

/-! ### Numbers and spans -/

theorem notMem_join {c sep : Char} {parts : List (List Char)} (hsep : c ≠ sep)
    (h : ∀ p ∈ parts, c ∉ p) : c ∉ join sep parts := by
  induction parts with
  | nil => simp [join, List.intercalate]
  | cons p parts ih =>
    cases parts with
    | nil => simpa [join, List.intercalate] using h p (by simp)
    | cons q parts =>
      have ih := ih fun r hr => h r (by simp [hr])
      have hp := h p (by simp)
      simp only [join, List.intercalate, List.intersperse_cons_cons, List.flatten_cons,
        List.mem_append, List.mem_singleton, not_or] at ih ⊢
      exact ⟨hp, hsep, ih⟩

theorem join_ne_nil {sep : Char} {parts : List (List Char)} (hne : parts ≠ [])
    (h : ∀ p ∈ parts, p ≠ []) : join sep parts ≠ [] := by
  cases parts with
  | nil => exact absurd rfl hne
  | cons p parts =>
    have hp := h p (by simp)
    cases parts with
    | nil => simpa [join, List.intercalate] using hp
    | cons q parts => simp [join, List.intercalate, hp]

/-- A joined list of texts is read back part by part. -/
theorem mapM_splitOn_join {α : Type} {parse : List Char → Option α} {render : α → List Char}
    {sep : Char} {values : List α} (hne : values ≠ [])
    (hparse : ∀ v ∈ values, parse (render v) = some v) (hsep : ∀ v ∈ values, sep ∉ render v) :
    ((join sep (values.map render)).splitOn sep).mapM parse = some values := by
  rw [splitOn_join (by simpa using hsep) (by simpa using hne), List.mapM_map]
  clear hne hsep
  induction values with
  | nil => rfl
  | cons v values ih =>
    rw [List.mapM_cons, Function.comp_apply, hparse v (by simp), Option.bind_eq_bind,
      Option.bind_some, ih fun w hw => hparse w (by simp [hw])]
    rfl

theorem parseNumbers_joinedNumbers (values : List U64) :
    parseNumbers (joinedNumbers (values.map Fin.val)) = some values := by
  rw [joinedNumbers, List.map_map]
  cases values with
  | nil => rfl
  | cons v values =>
    have hne : join ',' ((v :: values).map (decimal ∘ Fin.val)) ≠ [] :=
      join_ne_nil (by simp) fun p hp => by
        obtain ⟨w, -, rfl⟩ := List.mem_map.mp hp
        exact decimal_ne_nil _
    rw [parseNumbers, if_neg hne]
    exact mapM_splitOn_join (by simp) (fun w _ => parseU64_decimal w)
      fun w _ => notMem_decimal (by decide) _

theorem parseSpan_spanText (span : U64 × U64) :
    parseSpan (spanText (Extents.spanVal span)) = some span := by
  have hsep : '-' ∉ decimal span.1 := notMem_decimal (by decide) _
  rw [parseSpan, spanText, Extents.spanVal, splitOnce_append hsep]
  simp [parseU64_decimal]

/-- The spans of a record as 64-bit numbers. -/
theorem exists_spans (x : Extents) :
    ∃ spans : List (U64 × U64), spans.map Extents.spanVal = x.spans := by
  refine ⟨x.spans.attach.map fun p => (⟨p.1.1, ?_⟩, ⟨p.1.2, x.valid.bounded p.1 p.2⟩), ?_⟩
  · exact (x.valid.canonical.pos p.1 p.2).trans (x.valid.bounded p.1 p.2)
  · rw [List.map_map]
    exact List.attach_map_subtype_val x.spans

theorem parseSpans_spansText {x : Extents} {spans : List (U64 × U64)}
    (h : spans.map Extents.spanVal = x.spans) : parseSpans (spansText x) = some spans := by
  rw [spansText, ← h, List.map_map]
  cases spans with
  | nil => rfl
  | cons v spans =>
    have hne : join ',' ((v :: spans).map (spanText ∘ Extents.spanVal)) ≠ [] :=
      join_ne_nil (by simp) fun p hp => by
        obtain ⟨w, -, rfl⟩ := List.mem_map.mp hp
        simp [spanText]
    rw [parseSpans, if_neg hne]
    refine mapM_splitOn_join (by simp) (fun w _ => parseSpan_spanText w) fun w _ hmem => ?_
    simp only [Function.comp_apply, spanText, List.mem_append, List.mem_cons] at hmem
    rcases hmem with hmem | hmem | hmem
    · exact notMem_decimal (by decide) _ hmem
    · exact absurd hmem (by decide)
    · exact notMem_decimal (by decide) _ hmem

end Disk

namespace Extents

theorem ext_bytes {x y : Extents} (h : x.bytes = y.bytes) : x = y := by
  have hspans : x.spans = y.spans := Spans.canonical_unique x.valid.canonical y.valid.canonical h
  have htotal : x.total = y.total := by rw [x.total_eq_card, y.total_eq_card, h]
  obtain ⟨⟨xs, xt⟩, hx⟩ := x
  obtain ⟨⟨ys, yt⟩, hy⟩ := y
  cases hspans
  cases htotal
  rfl

theorem addSpan_of_disjoint {x : Extents} {span : U64 × U64} (hlt : (span.1 : ℕ) < span.2)
    (h : Disjoint x.bytes (Finset.Ico (span.1 : ℕ) span.2)) :
    ∃ y, x.addSpan span = some y ∧ y.bytes = x.bytes ∪ Finset.Ico (span.1 : ℕ) span.2 := by
  have hrange : ByteRange.new span.1 span.2 =
      .ok ⟨span.1, span.2, hlt.le, span.2.isLt⟩ := dif_neg (not_lt.mpr (Fin.le_def.mpr hlt.le))
  have hadded : (x.insert ⟨span.1, span.2, hlt.le, span.2.isLt⟩).1 = (span.2 : ℕ) - span.1 := by
    rw [added_insert, ByteRange.bytes, Finset.sdiff_eq_self_of_disjoint h.symm, Nat.card_Ico]
  refine ⟨_, ?_, bytes_insert x ⟨span.1, span.2, hlt.le, span.2.isLt⟩⟩
  simp [addSpan, hrange, Except.toOption, hadded, guard]

/-- Spans in canonical order are all new, so none of them is refused. -/
theorem fromSpans_canonical {spans : List (U64 × U64)} {x : Extents}
    (h : spans.map spanVal = x.spans) : fromSpans spans = some x := by
  have hrun : ∀ (rest : List (U64 × U64)) (y : Extents), Spans.Canonical (rest.map spanVal) →
      Disjoint y.bytes (listedBytes rest) →
      ∃ z, rest.foldlM addSpan y = some z ∧ z.bytes = y.bytes ∪ listedBytes rest := by
    intro rest
    induction rest with
    | nil => exact fun y _ _ => ⟨y, rfl, by simp [listedBytes]⟩
    | cons span rest ih =>
      intro y hc hdis
      have hcons : listedBytes (span :: rest) =
          Finset.Ico (span.1 : ℕ) span.2 ∪ listedBytes rest := rfl
      have hc' : Spans.Canonical (spanVal span :: rest.map spanVal) := hc
      rw [hcons, Finset.disjoint_union_right] at hdis
      have hpos : (span.1 : ℕ) < span.2 := hc'.pos (spanVal span) (by simp)
      obtain ⟨z, hz, hzbytes⟩ := addSpan_of_disjoint hpos hdis.1
      have hahead : Disjoint (Finset.Ico (span.1 : ℕ) span.2) (listedBytes rest) := by
        refine Finset.disjoint_left.mpr fun b hb hr => ?_
        obtain ⟨q, hq, hle, -⟩ := Spans.mem_cover.mp hr
        have hafter : (span.2 : ℕ) < q.1 := (Spans.canonical_cons.mp hc').2.1 q hq
        have := (Finset.mem_Ico.mp hb).2
        omega
      obtain ⟨w, hw, hwbytes⟩ := ih z (Spans.canonical_cons.mp hc').2.2
        (hzbytes ▸ Finset.disjoint_union_left.mpr ⟨hdis.2, hahead⟩)
      refine ⟨w, by rw [List.foldlM_cons, hz, Option.bind_eq_bind, Option.bind_some, hw], ?_⟩
      rw [hwbytes, hzbytes, hcons, Finset.union_assoc]
  obtain ⟨z, hz, hbytes⟩ := hrun spans empty (h ▸ x.valid.canonical) (by simp)
  rw [fromSpans, hz]
  refine congrArg some (ext_bytes ?_)
  rw [hbytes, bytes_empty, Finset.empty_union, listedBytes, h, bytes]

end Extents

namespace PieceSet

theorem nodup_flagged (flags : List Bool) : (flagged flags).Nodup := by
  have hzip : flags.zipIdx.Nodup :=
    List.Nodup.of_map Prod.snd (List.zipIdx_map_snd 0 flags ▸ List.nodup_range')
  refine hzip.filterMap fun a b i ha hb => ?_
  simp only [Option.mem_def, Option.ite_none_right_eq_some, Option.some.injEq] at ha hb
  exact Prod.ext (ha.1.trans hb.1.symm) (ha.2.trans hb.2.symm)

theorem lt_of_mem_flagged {flags : List Bool} {i : ℕ} (h : i ∈ flagged flags) :
    i < flags.length := (List.getElem?_eq_some_iff.mp (mem_flagged.mp h)).1

end PieceSet

namespace Disk

open Text

/-! ### The manifest's entries -/

theorem extentsKey_injective : Function.Injective extentsKey := fun _ _ h =>
  decimal_injective (List.append_cancel_left h)

theorem nodup_manifestEntries (t : Torrent) : ((manifestEntries t).map Prod.fst).Nodup := by
  have hkeys : (t.extents.zipIdx.map fun p => (extentsKey p.2, spansText p.1)).map Prod.fst =
      (List.range' 0 t.extents.length).map extentsKey := by
    rw [List.map_map, ← List.zipIdx_map_snd, List.map_map]
    rfl
  rw [manifestEntries, List.map_append, hkeys, List.nodup_append]
  refine ⟨?_, List.Nodup.map extentsKey_injective List.nodup_range', fun a ha b hb hab => ?_⟩
  · simp only [List.map_cons, List.map_nil]
    decide
  obtain ⟨n, -, rfl⟩ := List.mem_map.mp hb
  -- no fixed key begins like the key of a file
  have hfirst : a.head? = some 'e' := by rw [hab]; rfl
  simp only [List.map_cons, List.map_nil, List.mem_cons, List.not_mem_nil, or_false] at ha
  rcases ha with rfl | rfl | rfl | rfl <;> exact absurd hfirst (by decide)

theorem notMem_joinedNumbers {c : Char} (hdigit : c.isDigit = false) (hsep : c ≠ ',')
    (values : List ℕ) : c ∉ joinedNumbers values :=
  notMem_join hsep fun p hp => by
    obtain ⟨n, -, rfl⟩ := List.mem_map.mp hp
    exact notMem_decimal hdigit n

theorem notMem_spansText {c : Char} (hdigit : c.isDigit = false) (hsep : c ≠ ',') (hdash : c ≠ '-')
    (x : Extents) : c ∉ spansText x :=
  notMem_join hsep fun p hp => by
    obtain ⟨span, -, rfl⟩ := List.mem_map.mp hp
    simp [spanText, notMem_decimal hdigit, hdash]

theorem notMem_extentsKey {c : Char} (hextents : c ∉ "extents.".toList) (hdigit : c.isDigit = false)
    (index : ℕ) : c ∉ extentsKey index := by
  intro hmem
  rcases List.mem_append.mp hmem with h | h
  · exact hextents h
  · exact notMem_decimal hdigit _ h

theorem notMem_fixed : ∀ c ∈ ['=', '\n', '\r'], c.isDigit = false ∧ c ≠ ',' ∧ c ≠ '-' ∧
    c ∉ "version".toList ∧ c ∉ "1".toList ∧ c ∉ "piece_length".toList ∧ c ∉ "files".toList ∧
      c ∉ "pieces".toList ∧ c ∉ "extents.".toList := by
  intro c hc
  simp only [List.mem_cons, List.not_mem_nil, or_false] at hc
  rcases hc with rfl | rfl | rfl <;> decide

/-- Keys and values are made of letters, digits and the marks `. _ , -`. -/
theorem notMem_manifestEntries {t : Torrent} {p : List Char × List Char}
    (hp : p ∈ manifestEntries t) {c : Char} (hc : c ∈ ['=', '\n', '\r']) : c ∉ p.1 ∧ c ∉ p.2 := by
  obtain ⟨hdigit, hcomma, hdash, hversion, hone, hlength, hfiles, hpieces, hextents⟩ := notMem_fixed c hc
  rw [manifestEntries] at hp
  rcases List.mem_append.mp hp with hp | hp
  · simp only [List.mem_cons, List.not_mem_nil, or_false] at hp
    rcases hp with rfl | rfl | rfl | rfl
    · exact ⟨hversion, hone⟩
    · exact ⟨hlength, notMem_decimal hdigit _⟩
    · exact ⟨hfiles, notMem_joinedNumbers hdigit hcomma _⟩
    · exact ⟨hpieces, notMem_joinedNumbers hdigit hcomma _⟩
  · obtain ⟨q, -, hq⟩ := List.mem_map.mp hp
    rw [← hq]
    exact ⟨notMem_extentsKey hextents hdigit q.2, notMem_spansText hdigit hcomma hdash _⟩

theorem parseValues_manifest (t : Torrent) :
    ∃ values, parseValues (manifest t) = some values ∧ values.Holds (manifestEntries t) := by
  have hkey : ∀ p ∈ manifestEntries t, '=' ∉ p.1 := fun p hp =>
    (notMem_manifestEntries hp List.mem_cons_self).1
  have hline : ∀ p ∈ manifestEntries t, ∀ c ∈ ['\n', '\r'], c ∉ p.1 ∧ c ∉ p.2 := fun p hp c hc =>
    notMem_manifestEntries hp (List.mem_cons_of_mem _ hc)
  exact parseValues_unlines (nodup_manifestEntries t) hkey hline

/-! ### Completed pieces -/

theorem foldlM_markPiece {pieces : List U64} (flags : List Bool) (hnodup : pieces.Nodup)
    (hunset : ∀ p ∈ pieces, flags[(p : ℕ)]? = some false) :
    ∃ marked, pieces.foldlM markPiece flags = some marked := by
  induction pieces generalizing flags with
  | nil => exact ⟨flags, rfl⟩
  | cons piece pieces ih =>
    have hmark : markPiece flags piece = some (flags.set piece true) := by
      simp [markPiece, hunset piece (by simp)]
    obtain ⟨hnew, hnodup⟩ := List.nodup_cons.mp hnodup
    obtain ⟨marked, hmarked⟩ := ih (flags.set piece true) hnodup fun p hp => by
      have hne : (piece : ℕ) ≠ p := fun he => hnew (Fin.ext he ▸ hp)
      rw [List.getElem?_set_ne hne]
      exact hunset p (by simp [hp])
    refine ⟨marked, ?_⟩
    rw [List.foldlM_cons, hmark, Option.bind_eq_bind, Option.bind_some, hmarked]

/-- Marking the listed pieces of a set of flags sets exactly these flags. -/
theorem foldlM_markPiece_flagged {flags : List Bool} {pieces : List U64}
    (h : pieces.map Fin.val = PieceSet.flagged flags) :
    pieces.foldlM markPiece (List.replicate flags.length false) = some flags := by
  have hmem : ∀ i, (∃ p ∈ pieces, (p : ℕ) = i) ↔ flags[i]? = some true := fun i => by
    rw [← PieceSet.mem_flagged, ← h, List.mem_map]
  have hnodup : pieces.Nodup :=
    List.Nodup.of_map Fin.val (h ▸ PieceSet.nodup_flagged flags)
  obtain ⟨marked, hmarked⟩ := foldlM_markPiece (List.replicate flags.length false) hnodup
    fun p hp => by
      have hlt := (List.getElem?_eq_some_iff.mp ((hmem p).mp ⟨p, hp, rfl⟩)).1
      simp [hlt]
  obtain ⟨hlen, -, -, hset⟩ := markPieces_eq_some hmarked
  rw [hmarked]
  refine congrArg some (List.ext_getElem (by simpa using hlen) fun i h1 h2 => ?_)
  have hiff : marked[i]? = some true ↔ flags[i]? = some true := by
    rw [hset, ← hmem]
    simp [List.getElem?_replicate]
  rw [List.getElem?_eq_getElem h1, List.getElem?_eq_getElem h2, Option.some.injEq,
    Option.some.injEq] at hiff
  exact Bool.eq_iff_iff.mpr hiff

/-! ### Files -/

/-- The data on disk reaches to the end of every recorded span. -/
def HoldsSpans (dir : Dir) (extents : List Extents) : Prop :=
  ∀ i x, extents[i]? = some x → ∀ span ∈ x.spans,
    ∃ bytes, dir.files i = some bytes ∧ span.2 ≤ bytes.length

/-- Every span ends within the length of the file its position names. -/
def WithinLayout (layout : TorrentLayout) (extents : List Extents) : Prop :=
  ∀ i x, extents[i]? = some x → ∃ len, layout.fileLength (FileIndex.ofPosition i) = some len ∧
    ∀ span ∈ x.spans, span.2 ≤ len

theorem restoreFile_manifest {dir : Dir} {layout : TorrentLayout} {st : Progress} {index : ℕ}
    {x : Extents} {es : List (List Char × List Char)}
    (hholds : st.values.Holds ((extentsKey index, spansText x) :: es))
    (hwithin : ∃ len, layout.fileLength (FileIndex.ofPosition index) = some len ∧
      ∀ span ∈ x.spans, span.2 ≤ len)
    (hdir : ∀ span ∈ x.spans, ∃ bytes, dir.files index = some bytes ∧ span.2 ≤ bytes.length)
    (hstored : st.stored + x.total < 2 ^ 64) :
    restoreFile dir layout .none st index =
      some ⟨st.values.erase (extentsKey index), st.extents ++ [x], st.stored + x.total⟩ := by
  obtain ⟨spans, hspans⟩ := exists_spans x
  obtain ⟨len, hlen, hends⟩ := hwithin
  have hcheck : checkFile dir .none index x = some () := by
    unfold checkFile
    split
    · rename_i hpos
      have hne : x.spans ≠ [] := fun hnil => by
        rw [x.total_eq_card, Extents.bytes, hnil] at hpos
        simp at hpos
      obtain ⟨span, hspan⟩ := List.exists_mem_of_ne_nil _ hne
      obtain ⟨bytes, hbytes, -⟩ := hdir span hspan
      have hall : ∀ span ∈ x.spans, span.2 ≤ bytes.length := fun span hs => by
        obtain ⟨bytes', hbytes', hle⟩ := hdir span hs
        rw [hbytes] at hbytes'
        cases hbytes'
        exact hle
      have hfile : fileLen dir .none index = some bytes.length := by
        simp [fileLen, Faults.none, hbytes]
      rw [hfile, Option.bind_eq_bind, Option.bind_some, guard, if_pos hall]
      rfl
    · rfl
  rw [restoreFile, hholds.remove.1]
  simp only [Option.bind_eq_bind, Option.bind_some, parseSpans_spansText hspans,
    Extents.fromSpans_canonical hspans, hlen, hcheck, U64.checkedAdd_of_lt hstored]
  rw [guard, if_pos hends]
  rfl

theorem restoreFiles_manifest {dir : Dir} {layout : TorrentLayout} {xs : List Extents} {k : ℕ}
    (st : Progress)
    (hholds : st.values.Holds ((xs.zipIdx k).map fun p => (extentsKey p.2, spansText p.1)))
    (hwithin : ∀ p ∈ xs.zipIdx k, ∃ len, layout.fileLength (FileIndex.ofPosition p.2) = some len ∧
      ∀ span ∈ p.1.spans, span.2 ≤ len)
    (hdir : ∀ p ∈ xs.zipIdx k, ∀ span ∈ p.1.spans,
      ∃ bytes, dir.files p.2 = some bytes ∧ span.2 ≤ bytes.length)
    (hstored : st.stored + (xs.map Extents.total).sum < 2 ^ 64) :
    ∃ st', (List.range' k xs.length).foldlM (restoreFile dir layout .none) st = some st' ∧
      st'.extents = st.extents ++ xs ∧ st'.stored = st.stored + (xs.map Extents.total).sum ∧
      st'.values.Holds [] := by
  induction xs generalizing k st with
  | nil => exact ⟨st, rfl, by simp, by simp, hholds⟩
  | cons x xs ih =>
    rw [List.zipIdx_cons] at hholds hwithin hdir
    rw [List.map_cons] at hholds
    rw [List.map_cons, List.sum_cons] at hstored
    have hfile := restoreFile_manifest hholds (hwithin _ List.mem_cons_self)
      (hdir _ List.mem_cons_self) (by change _ + x.total < _; omega)
    obtain ⟨st', hrun, hext, hsum, hend⟩ := ih
      ⟨st.values.erase (extentsKey k), st.extents ++ [x], st.stored + x.total⟩
      hholds.remove.2 (fun p hp => hwithin p (List.mem_cons_of_mem _ hp))
      (fun p hp => hdir p (List.mem_cons_of_mem _ hp)) (by simpa [Nat.add_assoc] using hstored)
    refine ⟨st', ?_, by simpa using hext, by simpa [Nat.add_assoc] using hsum, hend⟩
    rw [List.length_cons, List.range'_succ, List.foldlM_cons, hfile, Option.bind_eq_bind,
      Option.bind_some, hrun]

theorem exists_listedLengths (layout : TorrentLayout) :
    ∃ files : List U64, files.map Fin.val = listedLengths layout := by
  have hlt : ∀ n ∈ listedLengths layout, n < 2 ^ 64 := fun n hn => by
    obtain ⟨i, -, hi⟩ := List.mem_filterMap.mp hn
    have hle := List.single_le_sum (fun m _ => Nat.zero_le m) n (List.mem_of_getElem? hi)
    exact hle.trans_lt (layout.totalLength_eq ▸ layout.totalLength_lt)
  exact ⟨(listedLengths layout).attach.map fun n => ⟨n.1, hlt n.1 n.2⟩, by simp [Function.comp_def]⟩

theorem exists_flagged {t : Torrent} :
    ∃ pieces : List U64, pieces.map Fin.val = PieceSet.flagged t.completed := by
  have hlt : ∀ n ∈ PieceSet.flagged t.completed, n < 2 ^ 64 := fun n hn => by
    have h1 := PieceSet.lt_of_mem_flagged hn
    have h2 := t.layout.pieceCount_lt
    rw [t.length_completed] at h1
    omega
  exact ⟨(PieceSet.flagged t.completed).attach.map fun n => ⟨n.1, hlt n.1 n.2⟩,
    by simp [Function.comp_def]⟩

/-- The steps by which `restore` accepts. -/
theorem restore_of_steps {dir : Option Dir} {d : Dir} {layout : TorrentLayout} {faults : Faults}
    {text rawLength rawFiles rawPieces : List Char} {v0 v1 v2 v3 v4 : Values} {length : U64}
    {files pieces : List U64} {completed : List Bool} {st : Progress}
    (hread : readManifest dir faults = some (d, text)) (hvalues : parseValues text = some v0)
    (hversion : v0.remove "version".toList = some ("1".toList, v1))
    (hrawLength : v1.remove "piece_length".toList = some (rawLength, v2))
    (hlength : parseU64 rawLength = some length) (hlengthEq : (length : ℕ) = layout.pieceLength)
    (hrawFiles : v2.remove "files".toList = some (rawFiles, v3))
    (hfiles : parseNumbers rawFiles = some files)
    (hfilesEq : files.map Fin.val = listedLengths layout)
    (hrawPieces : v3.remove "pieces".toList = some (rawPieces, v4))
    (hpieces : parseNumbers rawPieces = some pieces)
    (hcompleted : pieces.foldlM markPiece (List.replicate layout.pieceCount false) = some completed)
    (hst : (List.range layout.fileCount).foldlM (restoreFile d layout faults) ⟨v4, [], 0⟩ = some st)
    (hend : st.values.entries = []) :
    restore dir layout faults = some (st.extents, completed, st.stored) := by
  unfold restore
  refine Option.bind_eq_some_iff.mpr ⟨(d, text), hread, ?_⟩
  refine Option.bind_eq_some_iff.mpr ⟨v0, hvalues, ?_⟩
  refine Option.bind_eq_some_iff.mpr ⟨("1".toList, v1), hversion, ?_⟩
  refine Option.bind_eq_some_iff.mpr ⟨(), (Option.guard_eq_some' _).mpr rfl, ?_⟩
  refine Option.bind_eq_some_iff.mpr ⟨(rawLength, v2), hrawLength, ?_⟩
  refine Option.bind_eq_some_iff.mpr ⟨length, hlength, ?_⟩
  refine Option.bind_eq_some_iff.mpr ⟨(), (Option.guard_eq_some' _).mpr hlengthEq, ?_⟩
  refine Option.bind_eq_some_iff.mpr ⟨(rawFiles, v3), hrawFiles, ?_⟩
  refine Option.bind_eq_some_iff.mpr ⟨files, hfiles, ?_⟩
  refine Option.bind_eq_some_iff.mpr ⟨(), (Option.guard_eq_some' _).mpr hfilesEq, ?_⟩
  refine Option.bind_eq_some_iff.mpr ⟨(rawPieces, v4), hrawPieces, ?_⟩
  refine Option.bind_eq_some_iff.mpr ⟨pieces, hpieces, ?_⟩
  refine Option.bind_eq_some_iff.mpr ⟨completed, hcompleted, ?_⟩
  refine Option.bind_eq_some_iff.mpr ⟨st, hst, ?_⟩
  exact Option.bind_eq_some_iff.mpr ⟨(), (Option.guard_eq_some' _).mpr hend, rfl⟩

/-- The text of a record whose spans fit the layout and the data on disk is
read back as that record. -/
theorem restore_manifest {t : Torrent} {dir : Dir} (hdir : dir.manifest = some (manifest t))
    (hwithin : WithinLayout t.layout t.extents) (hholds : HoldsSpans dir t.extents)
    (hstored : t.stored < 2 ^ 64) :
    restore (some dir) t.layout .none = some (t.extents, t.completed, t.stored) := by
  obtain ⟨values, hvalues, hentries⟩ := parseValues_manifest t
  obtain ⟨files, hfiles⟩ := exists_listedLengths t.layout
  obtain ⟨pieces, hpieces⟩ := exists_flagged (t := t)
  have hread : readManifest (some dir) .none = some (dir, manifest t) := by
    simp [readManifest, Faults.none, hdir, guard]
  have hlength := parseU64_decimal ⟨t.layout.pieceLength, t.layout.pieceLength_lt⟩
  have hparsed : parseNumbers (joinedNumbers (listedLengths t.layout)) = some files := by
    rw [← hfiles, parseNumbers_joinedNumbers]
  have hmarked : parseNumbers (joinedNumbers (PieceSet.flagged t.completed)) = some pieces := by
    rw [← hpieces, parseNumbers_joinedNumbers]
  have hcompleted := foldlM_markPiece_flagged hpieces
  rw [t.length_completed] at hcompleted
  -- the four fixed entries, then one for each file
  rw [manifestEntries, List.cons_append] at hentries
  obtain ⟨hversion, h1⟩ := hentries.remove
  rw [List.cons_append] at h1
  obtain ⟨hpiece, h2⟩ := h1.remove
  rw [List.cons_append] at h2
  obtain ⟨hlist, h3⟩ := h2.remove
  rw [List.cons_append] at h3
  obtain ⟨hmarks, h4⟩ := h3.remove
  rw [List.nil_append] at h4
  obtain ⟨st, hrun, hext, hsum, hend⟩ := restoreFiles_manifest ⟨_, [], 0⟩ h4
    (fun p hp => hwithin _ _ (List.mem_zipIdx_iff_getElem?.mp hp))
    (fun p hp => hholds _ _ (List.mem_zipIdx_iff_getElem?.mp hp))
    (by rw [Nat.zero_add]; exact hstored)
  rw [t.length_extents, ← List.range_eq_range'] at hrun
  rw [restore_of_steps hread hvalues hversion hpiece hlength rfl hlist hparsed hfiles hmarks
    hmarked hcompleted hrun hend.entries_eq_nil, hext, hsum, List.nil_append, Nat.zero_add]
  rfl

/-! ### Other layouts -/

theorem listedLengths_eq (layout : TorrentLayout) :
    listedLengths layout =
      (List.range layout.fileCount).map fun i => layout.fileLengths.getD (i % 2 ^ 32) 0 := by
  rw [listedLengths, ← List.filterMap_eq_map]
  refine List.filterMap_congr fun i hi => ?_
  have hlt : i % 2 ^ 32 < layout.fileLengths.length :=
    (Nat.mod_le _ _).trans_lt (List.mem_range.mp hi)
  rw [TorrentLayout.fileLength, FileIndex.ofPosition_val, List.getElem?_eq_getElem hlt,
    Function.comp_apply, List.getD_eq_getElem?_getD, List.getElem?_eq_getElem hlt, Option.getD_some]

/-- The manifest tells the layouts apart up to files whose position does not
fit 32 bits. -/
theorem listedLengths_eq_iff {a b : TorrentLayout} :
    listedLengths a = listedLengths b ↔
      a.fileCount = b.fileCount ∧ ∀ i < 2 ^ 32, a.fileLengths[i]? = b.fileLengths[i]? := by
  have hget : ∀ l : TorrentLayout, ∀ i < 2 ^ 32, l.fileLengths[i]? = (listedLengths l)[i]? := by
    intro l i hi
    rw [listedLengths_eq, List.getElem?_map]
    by_cases hlt : i < l.fileCount
    · rw [List.getElem?_range hlt, Option.map_some, Nat.mod_eq_of_lt hi,
        List.getD_eq_getElem?_getD]
      rw [List.getElem?_eq_getElem hlt, Option.getD_some]
    · have hrange : (List.range l.fileCount)[i]? = none :=
        List.getElem?_eq_none (by rw [List.length_range]; exact not_lt.mp hlt)
      rw [hrange, Option.map_none]
      exact List.getElem?_eq_none (not_lt.mp hlt)
  constructor
  · intro h
    have hcount := congrArg List.length h
    rw [listedLengths_eq, listedLengths_eq] at hcount
    refine ⟨by simpa using hcount, fun i hi => ?_⟩
    rw [hget a i hi, hget b i hi, h]
  · rintro ⟨hcount, hall⟩
    rw [listedLengths_eq, listedLengths_eq, hcount]
    refine List.map_congr_left fun i _ => ?_
    rw [List.getD_eq_getElem?_getD, List.getD_eq_getElem?_getD,
      hall _ (Nat.mod_lt _ (by decide))]

theorem header_manifest {t : Torrent} {layout : TorrentLayout}
    (h : Header layout (manifest t)) :
    t.layout.pieceLength = layout.pieceLength ∧ listedLengths t.layout = listedLengths layout := by
  obtain ⟨values, hvalues, hentries⟩ := parseValues_manifest t
  obtain ⟨values', raw, length, h1, h2, h3, h4⟩ := h.pieceLength
  obtain ⟨values'', raw', files, h5, h6, h7, h8⟩ := h.files
  obtain rfl : values' = values := Option.some.inj (h1.symm.trans hvalues)
  obtain rfl : values'' = values' := Option.some.inj (h5.symm.trans hvalues)
  have hlength := (hentries.lookup "piece_length".toList (decimal t.layout.pieceLength)).mpr
    (by rw [manifestEntries]; exact List.mem_append_left _ (by simp))
  have hfiles := (hentries.lookup "files".toList (joinedNumbers (listedLengths t.layout))).mpr
    (by rw [manifestEntries]; exact List.mem_append_left _ (by simp))
  obtain rfl : raw = _ := Option.some.inj (h2.symm.trans hlength)
  obtain rfl : raw' = _ := Option.some.inj (h6.symm.trans hfiles)
  obtain ⟨listed, hlisted⟩ := exists_listedLengths t.layout
  rw [parseU64_decimal ⟨t.layout.pieceLength, t.layout.pieceLength_lt⟩] at h3
  rw [← hlisted, parseNumbers_joinedNumbers] at h7
  cases h3
  cases h7
  exact ⟨h4, hlisted.symm.trans h8⟩

/-- A manifest written for one layout is refused for another. -/
theorem restore_manifest_other {t : Torrent} {dir : Dir} {layout : TorrentLayout} {faults : Faults}
    (hdir : dir.manifest = some (manifest t))
    (hne : t.layout.pieceLength ≠ layout.pieceLength ∨
      listedLengths t.layout ≠ listedLengths layout) :
    restore (some dir) layout faults = none := by
  refine Option.eq_none_iff_forall_ne_some.mpr ?_
  rintro ⟨extents, completed, stored⟩ hr
  obtain ⟨d, text, hd, htext, haccepted⟩ := restore_eq_some hr
  obtain rfl := Option.some.inj hd
  obtain rfl : text = manifest t := Option.some.inj (htext.symm.trans hdir)
  obtain ⟨h1, h2⟩ := header_manifest haccepted.header
  exact hne.elim (fun h => h h1) fun h => h h2

/-! ### Every reachable record -/

/-- The records a torrent reaches from a fresh `open` through writes and
completed pieces. -/
inductive Reachable : Torrent → Prop
  | opened (dir : List Char) (layout : TorrentLayout) : Reachable (emptyTorrent dir layout)
  | written {t : Torrent} {torrent : InfoHash} {file : FileIndex} {offset len : ℕ}
      {range : ByteRange} (ht : Reachable t)
      (hrange : t.layout.checkRange torrent file offset len = .ok range) :
      Reachable (t.insert file range).2
  | completed {t : Torrent} (piece : PieceIndex) (ht : Reachable t) : Reachable (t.complete piece)

/-- Bytes are held only of files whose position fits 32 bits, within their length. -/
def Bounded (t : Torrent) : Prop :=
  ∀ i x, t.extents[i]? = some x → ∀ byte ∈ x.bytes,
    i < 2 ^ 32 ∧ ∃ len, t.layout.fileLengths[i]? = some len ∧ byte < len

theorem bounded_insert {t : Torrent} (ht : Bounded t) {torrent : InfoHash} {file : FileIndex}
    {offset len : ℕ} {range : ByteRange}
    (hrange : t.layout.checkRange torrent file offset len = .ok range) :
    Bounded (t.insert file range).2 := by
  obtain ⟨-, hend, fileLen, hlen, hle⟩ := TorrentLayout.checkRange_eq_ok hrange
  intro i x hx byte hbyte
  rw [Torrent.insert_extents] at hx
  by_cases hi : (file.zeroBased : ℕ) = i
  · subst hi
    have hlt : (file.zeroBased : ℕ) < t.extents.length := by
      have := (List.getElem?_eq_some_iff.mp hx).1
      rwa [List.length_set] at this
    rw [List.getElem?_set_self hlt, Option.some.injEq] at hx
    rw [← hx, Extents.bytes_insert, Finset.mem_union] at hbyte
    rcases hbyte with hbyte | hbyte
    · have hold : t.extents[(file.zeroBased : ℕ)]? = some (t.extentsOf file) := by
        rw [Torrent.extentsOf, List.getD_eq_getElem?_getD, List.getElem?_eq_getElem hlt,
          Option.getD_some]
      exact ht _ _ hold byte hbyte
    · have := (Finset.mem_Ico.mp hbyte).2
      exact ⟨file.zeroBased.isLt, fileLen, hlen, by omega⟩
  · rw [List.getElem?_set_ne hi] at hx
    exact ht i x hx byte hbyte

theorem bounded_of_reachable {t : Torrent} (ht : Reachable t) : Bounded t := by
  induction ht with
  | opened dir layout =>
    intro i x hx byte hbyte
    rw [emptyTorrent, List.getElem?_replicate] at hx
    split at hx
    · cases hx
      simp at hbyte
    · cases hx
  | written ht hrange ih => exact bounded_insert ih hrange
  | completed piece ht ih => exact ih

theorem span_le {x : Extents} {n : ℕ} (h : ∀ byte ∈ x.bytes, byte < n) {span : ℕ × ℕ}
    (hspan : span ∈ x.spans) : span.2 ≤ n := by
  have hpos := x.valid.canonical.pos span hspan
  have := h (span.2 - 1) (Spans.mem_cover.mpr ⟨span, hspan, by omega, by omega⟩)
  omega

theorem withinLayout_of_bounded {t : Torrent} (ht : Bounded t) :
    WithinLayout t.layout t.extents := by
  intro i x hx
  have hi : i < t.layout.fileLengths.length := by
    have := (List.getElem?_eq_some_iff.mp hx).1
    rwa [t.length_extents] at this
  have hlt : i % 2 ^ 32 < t.layout.fileLengths.length := (Nat.mod_le _ _).trans_lt hi
  refine ⟨t.layout.fileLengths[i % 2 ^ 32], ?_, fun span hspan => span_le (fun byte hbyte => ?_) hspan⟩
  · rw [TorrentLayout.fileLength, FileIndex.ofPosition_val, List.getElem?_eq_getElem hlt]
  · obtain ⟨hsmall, len, hlen, hb⟩ := ht i x hx byte hbyte
    have hmod := Nat.mod_eq_of_lt hsmall
    simp only [hmod]
    rw [List.getElem?_eq_getElem hi, Option.some.injEq] at hlen
    exact hlen ▸ hb

theorem stored_lt_of_bounded {t : Torrent} (ht : Bounded t) : t.stored < 2 ^ 64 := by
  have hle : t.stored ≤ t.layout.fileLengths.sum := by
    refine List.Forall₂.sum_le_sum (List.forall₂_iff_get.mpr ⟨?_, fun i h1 h2 => ?_⟩)
    · rw [List.length_map, t.length_extents]
      rfl
    · rw [List.length_map] at h1
      have hx : t.extents[i]? = some t.extents[i] := List.getElem?_eq_getElem h1
      have hsub : t.extents[i].bytes ⊆ Finset.range t.layout.fileLengths[i] := fun byte hbyte => by
        obtain ⟨-, len, hlen, hb⟩ := ht i _ hx byte hbyte
        rw [List.getElem?_eq_getElem h2, Option.some.injEq] at hlen
        exact Finset.mem_range.mpr (hlen ▸ hb)
      have := Finset.card_le_card hsub
      rw [Finset.card_range, ← Extents.total_eq_card] at this
      simpa using this
  exact hle.trans_lt (t.layout.totalLength_eq ▸ t.layout.totalLength_lt)

/-- A record reached by writes and completed pieces is read back from its own
manifest, over data files that reach to the end of its spans; for a layout with
another piece length, number of files or length of a file whose position fits
32 bits nothing is read back. -/
theorem manifest_round_trip {t : Torrent} (ht : Reachable t) {dir : Dir}
    (hdir : dir.manifest = some (manifest t)) :
    (HoldsSpans dir t.extents →
      restore (some dir) t.layout .none = some (t.extents, t.completed, t.stored)) ∧
    ∀ layout faults, (t.layout.pieceLength ≠ layout.pieceLength ∨
        t.layout.fileCount ≠ layout.fileCount ∨
        ∃ i < 2 ^ 32, t.layout.fileLengths[i]? ≠ layout.fileLengths[i]?) →
      restore (some dir) layout faults = none := by
  have hb := bounded_of_reachable ht
  refine ⟨fun hholds => restore_manifest hdir (withinLayout_of_bounded hb) hholds
    (stored_lt_of_bounded hb), fun layout faults hne => restore_manifest_other hdir ?_⟩
  refine hne.imp_right fun hne hlisted => ?_
  obtain ⟨hcount, hall⟩ := listedLengths_eq_iff.mp hlisted
  rcases hne with hne | ⟨i, hi, hne⟩
  · exact hne hcount
  · exact hne (hall i hi)

/-- The record of `oneFileLayout` after a write of two bytes and a completed piece. -/
def writtenTorrent : Torrent :=
  ((emptyTorrent [] oneFileLayout).insert ⟨0⟩ ⟨0, 2, by decide, by decide⟩).2.complete ⟨0⟩

theorem checkRange_oneFileLayout :
    oneFileLayout.checkRange ⟨List.replicate 20 0, rfl⟩ ⟨0⟩ 0 2 =
      .ok ⟨0, 2, by decide, by decide⟩ := by
  decide

theorem reachable_writtenTorrent : Reachable writtenTorrent :=
  .completed ⟨0⟩ (.written (.opened [] oneFileLayout) checkRange_oneFileLayout)

theorem manifest_round_trip_writtenTorrent : ∃ dir : Dir, dir.manifest = some (manifest writtenTorrent) ∧
    restore (some dir) writtenTorrent.layout .none =
      some (writtenTorrent.extents, writtenTorrent.completed, writtenTorrent.stored) ∧
    ∀ layout faults, writtenTorrent.layout.pieceLength ≠ layout.pieceLength →
      restore (some dir) layout faults = none := by
  let dir : Dir := ⟨some (manifest writtenTorrent), none, fun _ => some (List.replicate 4 7)⟩
  have hround := manifest_round_trip reachable_writtenTorrent (rfl : dir.manifest = _)
  refine ⟨dir, rfl, hround.1 fun i x hx span hspan => ?_,
    fun layout faults hne => hround.2 layout faults (Or.inl hne)⟩
  obtain ⟨len, hlen, hle⟩ := withinLayout_of_bounded (bounded_of_reachable reachable_writtenTorrent) i x hx
  have hfour : len = 4 := List.mem_singleton.mp (List.mem_of_getElem? hlen)
  refine ⟨List.replicate 4 7, rfl, ?_⟩
  rw [List.length_replicate, ← hfour]
  exact hle span hspan

theorem holdsSpans_emptyTorrent (dir : Dir) (layout : TorrentLayout) :
    HoldsSpans dir (emptyTorrent [] layout).extents := by
  intro i x hx span hspan
  have hempty : x = Extents.empty := List.eq_of_mem_replicate (List.mem_of_getElem? hx)
  rw [hempty] at hspan
  exact absurd hspan List.not_mem_nil

/-- Layouts with one list of lengths in the manifest are taken for each other. -/
theorem restore_emptyTorrent_of_listed {a b : TorrentLayout} {dir : Dir}
    (hpiece : a.pieceLength = b.pieceLength) (hcount : a.pieceCount = b.pieceCount)
    (hlisted : listedLengths a = listedLengths b)
    (hdir : dir.manifest = some (manifest (emptyTorrent [] a))) :
    restore (some dir) b .none ≠ none := by
  have hfiles : a.fileCount = b.fileCount := (listedLengths_eq_iff.mp hlisted).1
  have htext : manifest (emptyTorrent [] a) = manifest (emptyTorrent [] b) := by
    rw [manifest, manifest, manifestEntries, manifestEntries]
    simp only [emptyTorrent, hpiece, hcount, hlisted, hfiles]
  have hround := (manifest_round_trip (.opened [] b) (hdir.trans (congrArg some htext))).1
    (holdsSpans_emptyTorrent dir b)
  exact Option.ne_none_iff_exists'.mpr ⟨_, hround⟩

/-- More files than 32 bits can number: only the last one is not empty. -/
def manyFiles (last : ℕ) : List ℕ := List.replicate (2 ^ 32) 0 ++ [last]

theorem sum_manyFiles (last : ℕ) : last = (manyFiles last).sum := by
  rw [manyFiles, List.sum_append, List.sum_replicate]
  simp

def manyFilesLayout (last : ℕ) (hcount : 1 = U64.divCeil last 4) (hlast : last < 2 ^ 64) :
    TorrentLayout :=
  ⟨4, manyFiles last, last, 1, oneFileLayout.pieceLength_ne, oneFileLayout.pieceLength_lt,
    sum_manyFiles last, hlast, hcount, oneFileLayout.pieceCount_lt⟩

theorem listedLengths_manyFiles {a b : ℕ} (ha : 1 = U64.divCeil a 4) (hb : 1 = U64.divCeil b 4)
    (ha' : a < 2 ^ 64) (hb' : b < 2 ^ 64) :
    listedLengths (manyFilesLayout a ha ha') = listedLengths (manyFilesLayout b hb hb') := by
  refine listedLengths_eq_iff.mpr ⟨?_, fun i hi => ?_⟩
  · change (manyFiles a).length = (manyFiles b).length
    rw [manyFiles, manyFiles, List.length_append, List.length_append]
    rfl
  · change (manyFiles a)[i]? = (manyFiles b)[i]?
    have hlt : i < (List.replicate (2 ^ 32) 0).length := by rwa [List.length_replicate]
    rw [manyFiles, manyFiles, List.getElem?_append_left hlt, List.getElem?_append_left hlt]

/-- Two layouts that differ only in the length of a file beyond the first
`2 ^ 32` have one manifest, so the record of one is restored for the other. -/
theorem restore_manifest_manyFiles : ∃ (t : Torrent) (layout : TorrentLayout) (dir : Dir),
    Reachable t ∧ dir.manifest = some (manifest t) ∧ HoldsSpans dir t.extents ∧
      t.layout.fileLengths ≠ layout.fileLengths ∧ restore (some dir) layout .none ≠ none := by
  have hone : 1 = U64.divCeil 1 4 := by decide
  have htwo : 1 = U64.divCeil 2 4 := by decide
  have hpiece : (manyFilesLayout 1 hone (by decide)).pieceLength =
      (manyFilesLayout 2 htwo (by decide)).pieceLength := rfl
  have hcount : (manyFilesLayout 1 hone (by decide)).pieceCount =
      (manyFilesLayout 2 htwo (by decide)).pieceCount := rfl
  have hlisted := listedLengths_manyFiles hone htwo (by decide) (by decide)
  have hne : manyFiles 1 ≠ manyFiles 2 := fun h =>
    absurd ((sum_manyFiles 1).trans ((congrArg List.sum h).trans (sum_manyFiles 2).symm)) (by decide)
  exact ⟨emptyTorrent [] (manyFilesLayout 1 hone (by decide)), manyFilesLayout 2 htwo (by decide),
    ⟨some (manifest (emptyTorrent [] (manyFilesLayout 1 hone (by decide)))), none, fun _ => none⟩,
    .opened _ _, rfl, holdsSpans_emptyTorrent _ _, hne,
    restore_emptyTorrent_of_listed hpiece hcount hlisted rfl⟩

end Disk

end Rustorr
