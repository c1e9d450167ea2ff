import Rustorr.Http.Dlna
import Rustorr.Vfs.CleanPath

/-! Object ids as encoded paths, and the path that comes back of one. -/

namespace Rustorr.Dlna

open Didl UrlQuery

/-! ### Encoding -/

theorem plain_isPathSegment : Percent.Plain isPathSegment := by
  intro b hb
  have hlt : b < 0x80 := by
    unfold isPathSegment at hb
    simp only [Bool.or_eq_true, Bool.and_eq_true, decide_eq_true_eq] at hb
    rcases hb with ((hb | hb) | hb) | hb
    · exact UInt8.lt_of_le_of_lt hb.2 (by decide)
    · exact UInt8.lt_of_le_of_lt hb.2 (by decide)
    · exact UInt8.lt_of_le_of_lt hb.2 (by decide)
    · obtain ⟨c, hc, heq⟩ := List.any_eq_true.mp hb
      rw [beq_iff_eq.mp heq]
      exact of_decide_eq_true (List.all_eq_true.mp (by decide :
        ("-_.~$&+:=@".toList.all fun c => decide (UInt8.ofNat c.toNat < 0x80)) = true) c hc)
  refine ⟨hlt, ?_⟩
  rintro rfl
  revert hb
  decide

theorem pathEscape_append (a b : List Char) : pathEscape (a ++ b) = pathEscape a ++ pathEscape b := by
  unfold pathEscape
  rw [Utf8.encode_append, Percent.encode_append]

theorem pathEscape_injective : Function.Injective pathEscape := by
  intro a b h
  have hback : ∀ s, percentDecode (pathEscape s) = Utf8.encode s := by
    intro s
    have hdecode := Percent.percentDecode_encode plain_isPathSegment (Utf8.encode s) []
    rwa [List.append_nil, percentDecode, List.append_nil] at hdecode
  have hbytes := hback a
  rw [h, hback b] at hbytes
  exact (Utf8.encode_injective hbytes).symm

theorem pathEscape_slash (s : List Char) : pathEscape ('/' :: s) = "%2F".toList ++ pathEscape s := by
  have hslash : pathEscape ['/'] = "%2F".toList := by decide
  rw [← hslash, ← pathEscape_append]
  rfl

/-- Letters and digits stay. -/
theorem pathEscape_digits {hash : InfoHash} : pathEscape hash.toText = hash.toText := by
  have hone : ∀ c ∈ hash.toText, pathEscape [c] = [c] := fun c hc =>
    InfoHash.forall_mem_toText (P := fun c => pathEscape [c] = [c]) (by decide) hc
  generalize hash.toText = s at hone
  induction s with
  | nil => rfl
  | cons c s ih =>
    rw [← List.singleton_append, pathEscape_append, hone c List.mem_cons_self,
      ih fun d hd => hone d (List.mem_cons_of_mem c hd)]

theorem hashOf_eq (torrent : TorrentView) : hashOf torrent = torrent.hash.toText := by
  unfold hashOf
  have hsame : ∀ c ∈ torrent.hash.toText, c.toLower = c := fun c hc =>
    InfoHash.forall_mem_toText (P := fun c => c.toLower = c) (by decide) hc
  exact (List.map_congr_left hsame).trans (List.map_id _)

theorem torrentId_eq (torrent : TorrentView) :
    torrentId torrent = pathEscape ('/' :: torrent.hash.toText) := by
  unfold torrentId
  rw [pathEscape_slash, pathEscape_digits, hashOf_eq]

theorem loadId_eq (torrent : TorrentView) :
    loadId torrent = pathEscape ('/' :: torrent.hash.toText ++ "/LD".toList) := by
  have hload : pathEscape "/LD".toList = "%2FLD".toList := by decide
  unfold loadId
  rw [torrentId_eq, pathEscape_append, hload]

theorem fileId_eq (torrent : TorrentView) (file : Coordinator.TorrentFileView) :
    fileId torrent file =
      pathEscape ('/' :: torrent.hash.toText ++ '/' :: file.path.toList) := by
  unfold fileId
  rw [torrentId_eq, List.append_assoc, ← pathEscape_slash, ← pathEscape_append]

theorem listId_eq : "%2FTR".toList = pathEscape "/TR".toList := by decide

theorem emptyId_eq : "%2FNT".toList = pathEscape "/NT".toList := by decide

/-! ### Decoding -/

/-- What an encoding becomes when its plus signs are read as blanks. -/
def blankByte (b : UInt8) : UInt8 := if b = 0x2b then 0x20 else b

theorem checkEscapes_encode (bytes : List UInt8) :
    checkEscapes (Percent.encode isPathSegment bytes) = .ok () := by
  induction bytes with
  | nil => rfl
  | cons b bytes ih =>
    unfold Percent.encode Percent.encodeByte at ih ⊢
    rw [List.flatMap_cons]
    by_cases hb : isPathSegment b = true
    · obtain ⟨hlt, hne⟩ := plain_isPathSegment b hb
      rw [if_pos hb, List.singleton_append, checkEscapes]
      · exact ih
      · exact fun _ _ _ hc _ => Percent.ofNat_ne_percent hlt hne hc
      · exact fun hc => Percent.ofNat_ne_percent hlt hne hc
    · have hb256 : b.toNat < 256 := b.toNat_lt
      have hdigit : ∀ n, n < 16 → isHexDigit (Percent.hexDigit n) = true := by
        intro n hn
        unfold isHexDigit
        rw [Percent.hexValue_hexDigit hn]
        rfl
      rw [if_neg hb]
      unfold Percent.triplet
      rw [List.cons_append, List.cons_append, List.singleton_append, checkEscapes,
        hdigit _ (by omega), hdigit _ (by omega)]
      exact ih

theorem percentDecode_map_blank (bytes : List UInt8) :
    percentDecode ((Percent.encode isPathSegment bytes).map blank) = bytes.map blankByte := by
  induction bytes with
  | nil => rfl
  | cons b bytes ih =>
    unfold Percent.encode Percent.encodeByte at ih ⊢
    rw [List.flatMap_cons, List.map_append, List.map_cons]
    by_cases hb : isPathSegment b = true
    · obtain ⟨hlt, hne⟩ := plain_isPathSegment b hb
      rw [if_pos hb, List.map_singleton, List.singleton_append]
      by_cases hplus : b = 0x2b
      · subst hplus
        rw [show blank (Char.ofNat (0x2b : UInt8).toNat) = ' ' from rfl,
          percentDecode_cons_of_ne (by decide), ih]
        rfl
      · have hchar : Char.ofNat b.toNat ≠ '+' := by
          intro hchar
          have hencode := Percent.utf8EncodeChar_ofNat hlt
          rw [hchar] at hencode
          exact hplus (List.head_eq_of_cons_eq hencode).symm
        unfold blank blankByte at *
        rw [if_neg hchar, if_neg hplus, percentDecode_cons_of_ne (Percent.ofNat_ne_percent hlt hne),
          ih, Percent.utf8EncodeChar_ofNat hlt]
        rfl
    · have hplus : b ≠ 0x2b := by
        rintro rfl
        exact hb (by decide)
      have hb256 : b.toNat < 256 := b.toNat_lt
      have hdigit : ∀ n : Fin 16, blank (Percent.hexDigit n) = Percent.hexDigit n := by decide
      have hsame : (Percent.triplet b).map blank = Percent.triplet b := by
        unfold Percent.triplet
        rw [List.map_cons, List.map_cons, List.map_singleton, hdigit ⟨b.toNat / 16, by omega⟩,
          hdigit ⟨b.toNat % 16, by omega⟩]
        rfl
      rw [if_neg hb, hsame, Percent.percentDecode_triplet, ih]
      unfold blankByte
      rw [if_neg hplus]

theorem encode_map_blank (s : List Char) :
    Utf8.encode (s.map blank) = (Utf8.encode s).map blankByte := by
  induction s with
  | nil => rfl
  | cons c s ih =>
    have hone : String.utf8EncodeChar (blank c) = (String.utf8EncodeChar c).map blankByte := by
      by_cases hc : c = '+'
      · subst hc
        decide
      · unfold blank
        rw [if_neg hc]
        have hplus : 0x2b ∉ String.utf8EncodeChar c := by
          intro hmem
          have hchar := Utf8.mem_encode_of_ascii (s := [c]) (b := 0x2b) (by decide)
            (by rw [Utf8.encode, List.flatMap_singleton]; exact hmem)
          exact hc (List.mem_singleton.mp hchar).symm
        have hsame : ∀ b ∈ String.utf8EncodeChar c, blankByte b = b :=
          fun b hb => if_neg (ne_of_mem_of_not_mem hb hplus)
        exact ((List.map_congr_left hsame).trans (List.map_id _)).symm
    unfold Utf8.encode at ih ⊢
    rw [List.map_cons, List.flatMap_cons, List.flatMap_cons, List.map_append, hone, ih]

theorem component_pathEscape (s : List Char) : component (pathEscape s) = s.map blank := by
  unfold component pathEscape lossy
  rw [percentDecode_map_blank, ← encode_map_blank, Utf8.decode_encode]
  rfl

/-- The path of an id that encodes one: blanks for plus signs, and cleaned. -/
def readPath (path : List Char) : Path := Path.clean (path.map blank)

theorem objectPath_pathEscape (rest : List Char) :
    objectPath (pathEscape ('/' :: rest)) = .ok (readPath ('/' :: rest)) := by
  have hne : ('/' :: rest).map blank ≠ ['0'] := by
    rw [List.map_cons]
    intro h
    exact absurd (List.head_eq_of_cons_eq h) (by decide)
  have hrooted : (readPath ('/' :: rest)).head? = some '/' := Path.rooted_clean rfl
  unfold readPath at hrooted ⊢
  unfold objectPath queryUnescape
  rw [component_pathEscape]
  unfold pathEscape
  rw [checkEscapes_encode]
  simp only [Except.map]
  rw [if_neg hne, if_pos hrooted]

/-! ### What comes back -/

/-- The characters that reading an id can lose. -/
def isMark (c : Char) : Bool := "%/.+0123456789abcdefABCDEF".toList.contains c

set_option maxRecDepth 4000 in
theorem isMark_toLower (c : Char) : isMark c.toLower = isMark c := by
  by_cases hc : c < '\x80'
  · exact Casing.forall_ascii (P := fun c => isMark c.toLower = isMark c) (by decide) hc
  · have hlower : c.toLower = c := by
      unfold Char.toLower
      rw [dif_neg]
      rintro ⟨-, hle⟩
      exact hc (UInt32.lt_of_le_of_lt hle (by decide))
    rw [hlower]

theorem isMark_of_hexValue {c : Char} (h : (hexValue c).isSome = true) : isMark c = true := by
  have hall : ∀ n : Fin 128, (hexValue (Char.ofNat n)).isSome = true → isMark (Char.ofNat n) = true := by
    decide
  exact Casing.forall_ascii (P := fun c => (hexValue c).isSome = true → isMark c = true) hall
    (isAscii_of_hexValue h) h

/-- A path that comes back as it is: no plus sign, and no part that cleaning takes away. -/
structure Tidy (path : List Char) : Prop where
  plus : '+' ∉ path
  parts : ∀ part ∈ path.splitOn '/', Path.Element part

/-- Each plus sign is a mark less. -/
theorem markCount_map_blank (s : List Char) :
    markCount isMark (s.map blank) + s.count '+' = markCount isMark s := by
  induction s with
  | nil => rfl
  | cons c s ih =>
    unfold markCount at ih ⊢
    rw [List.map_cons, List.countP_cons, List.countP_cons, List.count_cons]
    by_cases hc : c = '+'
    · subst hc
      rw [if_neg (by decide), if_pos (by decide), if_pos (by decide)]
      omega
    · have hblank : blank c = c := if_neg hc
      rw [hblank, if_neg (c := (c == '+') = true) (by rw [beq_iff_eq]; exact hc)]
      omega

theorem markCount_readPath_le (rest : List Char) :
    markCount isMark (readPath ('/' :: rest)) ≤ markCount isMark ('/' :: rest) := by
  have hblank := markCount_map_blank ('/' :: rest)
  have hclean : markCount isMark (Path.clean ('/' :: rest.map blank)) ≤
      markCount isMark ('/' :: rest.map blank) := by
    by_cases hall : ∀ part ∈ (rest.map blank).splitOn '/', Path.Element part
    · rw [Path.clean_of_elements hall]
    · rcases eq_or_ne (rest.map blank) [] with hnil | hne
      · rw [hnil]
        decide
      · exact (Path.markCount_clean (by decide) (by decide) hne hall).le
  unfold readPath
  rw [List.map_cons] at hblank ⊢
  exact hclean.trans (by rw [← hblank]; exact Nat.le_add_right _ _)

/-- A path that keeps its marks had nothing to lose. -/
theorem tidy_of_le {rest : List Char} (hne : rest ≠ [])
    (h : markCount isMark ('/' :: rest) ≤ markCount isMark (readPath ('/' :: rest))) : Tidy rest := by
  have hblank := markCount_map_blank ('/' :: rest)
  have hnonempty : rest.map blank ≠ [] := mt List.map_eq_nil_iff.mp hne
  unfold readPath at h
  rw [List.map_cons] at hblank h
  have hall : ∀ part ∈ (rest.map blank).splitOn '/', Path.Element part := by
    by_contra hnot
    have hlt := Path.markCount_clean (p := isMark) (by decide) (by decide) hnonempty hnot
    rw [show blank '/' = '/' from rfl] at hblank h
    omega
  have hplus : '+' ∉ rest := by
    rw [show blank '/' = '/' from rfl] at hblank h
    rw [Path.clean_of_elements hall] at h
    intro hmem
    have hcount : 0 < ('/' :: rest).count '+' :=
      List.count_pos_iff.mpr (List.mem_cons_of_mem '/' hmem)
    omega
  rw [map_blank_eq_self_iff.mpr hplus] at hall
  exact ⟨hplus, hall⟩

theorem readPath_of_tidy {rest : List Char} (h : Tidy rest) :
    readPath ('/' :: rest) = '/' :: rest := by
  unfold readPath
  rw [map_blank_eq_self_iff.mpr (by
    rw [List.mem_cons, not_or]
    exact ⟨by decide, h.plus⟩)]
  exact Path.clean_of_elements h.parts

theorem readPath_eq_self_iff {rest : List Char} (hne : rest ≠ []) :
    readPath ('/' :: rest) = '/' :: rest ↔ Tidy rest :=
  ⟨fun h => tidy_of_le hne (by rw [h]), readPath_of_tidy⟩

/-- A tidy part in front does not matter. -/
theorem tidy_append_iff {front rest : List Char} (hfront : Tidy front) :
    Tidy (front ++ '/' :: rest) ↔ Tidy rest := by
  have hsplit : (front ++ '/' :: rest).splitOn '/' = front.splitOn '/' ++ rest.splitOn '/' :=
    List.splitOn_append_cons_self front rest
  constructor
  · intro h
    refine ⟨fun hmem => h.plus ?_, fun part hpart => h.parts part ?_⟩
    · exact List.mem_append_right _ (List.mem_cons_of_mem _ hmem)
    · rw [hsplit]
      exact List.mem_append_right _ hpart
  · intro h
    constructor
    · rw [List.mem_append, List.mem_cons, not_or, not_or]
      exact ⟨hfront.plus, by decide, h.plus⟩
    · intro part hpart
      rw [hsplit] at hpart
      rcases List.mem_append.mp hpart with hpart | hpart
      · exact hfront.parts part hpart
      · exact h.parts part hpart

/-- A single part. -/
theorem tidy_of_element {part : List Char} (hpart : Path.Element part) (hplus : '+' ∉ part) :
    Tidy part := by
  refine ⟨hplus, fun other hother => ?_⟩
  rw [List.splitOn_eq_singleton hpart.notMem, List.mem_singleton] at hother
  rw [hother]
  exact hpart

theorem notMem_toText {c : Char} (hc : ∀ n : Fin 16, Nat.digitChar n ≠ c) (hash : InfoHash) :
    c ∉ hash.toText := fun h =>
  InfoHash.forall_mem_toText (P := fun d => d ≠ c) hc h rfl

theorem toText_ne_nil (hash : InfoHash) : hash.toText ≠ [] := by
  intro h
  have hlength := hash.length_toText
  rw [h] at hlength
  cases hlength

theorem element_toText (hash : InfoHash) : Path.Element hash.toText := by
  have hdot : '.' ∉ hash.toText := notMem_toText (by decide) hash
  refine ⟨toText_ne_nil hash, ?_, ?_, notMem_toText (by decide) hash⟩
  · intro h
    exact hdot (by rw [h]; exact List.mem_cons_self)
  · intro h
    exact hdot (by rw [h]; exact List.mem_cons_self)

theorem tidy_toText (hash : InfoHash) : Tidy hash.toText :=
  tidy_of_element (element_toText hash) (notMem_toText (by decide) hash)

theorem tidy_list : Tidy "TR".toList := tidy_of_element (by constructor <;> decide) (by decide)

theorem tidy_empty : Tidy "NT".toList := tidy_of_element (by constructor <;> decide) (by decide)

theorem tidy_load : Tidy "LD".toList := tidy_of_element (by constructor <;> decide) (by decide)

end Rustorr.Dlna
