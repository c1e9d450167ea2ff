import Rustorr.Http.DlnaPaths

/-! Object ids as addresses: what is reached by browsing the ids that are listed. -/

namespace Rustorr.Dlna

open Didl UrlQuery

variable {u : Casing} {guess : List Char → Option (List Char)} {device : Device} {host : List Char}

/-! ### Categories -/

theorem normalizeCategory_cases (category : List Char) :
    normalizeCategory u category = "uncategorized".toList ∨
      normalizeCategory u category = u.toLowercase (Utf8.trim category) := by
  unfold normalizeCategory
  simp only
  split
  · exact Or.inl rfl
  · exact Or.inr rfl

/-- Normalising once is enough. -/
theorem normalizeCategory_normalizeCategory (h : u.Lawful) (category : List Char) :
    normalizeCategory u (normalizeCategory u category) = normalizeCategory u category := by
  have hknown : u.toLowercase (Utf8.trim "uncategorized".toList) = "uncategorized".toList := by
    have htrim : Utf8.trim "uncategorized".toList = "uncategorized".toList := by decide
    rw [htrim]
    exact h.toLowercase_of_ascii (by decide)
  generalize hc : normalizeCategory u category = c
  unfold normalizeCategory at hc
  simp only at hc
  split at hc
  · subst hc
    unfold normalizeCategory
    simp only
    rw [hknown]
    rfl
  · next hne =>
    subst hc
    have htrimmed := h.trimmed_toLowercase (Casing.trimmed_trim category)
    unfold normalizeCategory
    simp only
    rw [htrimmed.trim, h.toLowercase_of_settled (h.settled_toLowercase _), if_neg hne]

/-- A text read as a category loses the marks of its triplets. -/
theorem markCount_normalizeCategory (h : u.Lawful) (escaped : List Char) :
    normalizeCategory u (lossy (percentDecode escaped)) = "uncategorized".toList ∨
      markCount isMark (normalizeCategory u (lossy (percentDecode escaped))) +
        2 * (hasTriplet escaped).toNat ≤ markCount isMark escaped := by
  rcases normalizeCategory_cases (u := u) (lossy (percentDecode escaped)) with heq | heq
  · exact Or.inl heq
  · right
    have htrim : markCount isMark (Utf8.trim (lossy (percentDecode escaped))) ≤
        markCount isMark (lossy (percentDecode escaped)) := by
      unfold Utf8.trim
      exact List.Sublist.countP_le ((List.rdropWhile_prefix _ _).sublist.trans
        (List.dropWhile_sublist _))
    have hdecode := markBytes_percentDecode (p := isMark) (by decide)
      (fun c hc => isMark_of_hexValue hc) escaped
    rw [heq, h.markCount_toLowercase (by decide) isMark_toLower]
    rw [markCount_lossy] at htrim
    omega

theorem mem_categoryOrder {torrents : List TorrentView} {category : List Char} :
    category ∈ categoryOrder u torrents ↔
      ∃ torrent ∈ torrents, normalizeCategory u torrent.category = category := by
  have hpresent : category ∈ (torrents.map fun torrent => normalizeCategory u torrent.category).dedup ↔
      ∃ torrent ∈ torrents, normalizeCategory u torrent.category = category := by
    rw [List.mem_dedup, List.mem_map]
  unfold categoryOrder
  simp only
  rw [List.mem_append, List.mem_filter, decide_eq_true_eq, List.mem_insertionSort, List.mem_filter,
    decide_eq_true_eq, hpresent, and_comm, ← and_or_left, and_iff_left (Classical.em _)]

/-! ### Paths -/

theorem stripPrefix_append (front rest : List Char) : stripPrefix front (front ++ rest) = some rest := by
  unfold stripPrefix
  rw [if_pos (List.prefix_append front rest), List.drop_left]

theorem eq_of_stripPrefix {front text rest : List Char} (h : stripPrefix front text = some rest) :
    text = front ++ rest := by
  unfold stripPrefix at h
  split at h
  · next hprefix =>
    obtain ⟨t, rfl⟩ := hprefix
    rw [List.drop_left] at h
    rw [Option.some.inj h]
  · cases h

theorem lastPart_append (front : List Char) {part : List Char} (hpart : '/' ∉ part) :
    MediaType.lastPart (front ++ '/' :: part) = part := by
  unfold MediaType.lastPart
  rw [List.splitOn_append_cons_self, List.splitOn_eq_singleton hpart, List.getLast?_concat]
  rfl

theorem lastPart_append_cons (front rest : List Char) :
    MediaType.lastPart (front ++ '/' :: rest) = MediaType.lastPart rest := by
  have hne := List.splitOn_ne_nil '/' rest
  unfold MediaType.lastPart
  rw [List.splitOn_append_cons_self, List.getLast?_append, List.getLast?_eq_some_getLast hne]
  rfl

/-- The base of a path is its last part, where there is one. -/
theorem base_eq_lastPart {path : List Char} (hne : MediaType.lastPart path ≠ []) :
    base path = MediaType.lastPart path := by
  have hkeep : path.rdropWhile (fun c => decide (c = '/')) = path := by
    rw [List.rdropWhile_eq_self_iff]
    intro hpath hlast
    have hslash : path.getLast hpath = '/' := of_decide_eq_true hlast
    obtain ⟨front, hfront⟩ : ∃ front, path = front ++ '/' :: [] :=
      ⟨path.dropLast, by rw [← hslash, List.dropLast_append_getLast]⟩
    rw [hfront, lastPart_append front List.not_mem_nil] at hne
    exact hne rfl
  have hpath : path ≠ [] := by
    rintro rfl
    exact hne rfl
  unfold base
  simp only
  rw [hkeep, if_neg hpath]

theorem dir_append (front : List Char) {part : List Char} (hpart : '/' ∉ part) :
    dir (front ++ '/' :: part) = Path.clean (front ++ ['/']) := by
  have hslash : '/' ∈ front ++ '/' :: part := List.mem_append_right _ List.mem_cons_self
  have hdrop : (front ++ '/' :: part).rdropWhile (fun c => decide (c ≠ '/')) = front ++ ['/'] := by
    rw [show front ++ '/' :: part = front ++ ['/'] ++ part by simp]
    unfold List.rdropWhile
    rw [List.reverse_append, List.dropWhile_append_of_pos]
    · rw [List.reverse_append]
      simp
    · intro c hc
      have hmem : c ∈ part := List.mem_reverse.mp hc
      exact decide_eq_true (ne_of_mem_of_not_mem hmem hpart)
  unfold dir
  rw [if_pos hslash, hdrop]

theorem base_torrent (hash : InfoHash) : base ('/' :: hash.toText) = hash.toText := by
  have hlast : MediaType.lastPart ('/' :: hash.toText) = hash.toText :=
    lastPart_append [] (element_toText hash).notMem
  rw [base_eq_lastPart (by rw [hlast]; exact toText_ne_nil hash), hlast]

theorem isHashPath_torrent (hash : InfoHash) : isHashPath ('/' :: hash.toText) = true := by
  unfold isHashPath
  rw [base_torrent, InfoHash.length_toText, Bool.and_eq_true]
  refine ⟨rfl, ?_⟩
  rw [List.all_eq_true]
  intro c hc
  exact InfoHash.forall_mem_toText (P := fun c => isHexDigit c = true) (by decide) hc

/-- The path of a torrent is no other one. -/
theorem torrentPath_ne (hash : InfoHash) (rest : List Char) (front : List Char)
    (hfront : ∃ c more, front = '/' :: c :: more ∧ ∀ n : Fin 16, Nat.digitChar n ≠ c) :
    ¬ front <+: '/' :: hash.toText ++ rest := by
  obtain ⟨c, more, rfl, hc⟩ := hfront
  intro hstart
  obtain ⟨d, text, htext⟩ := List.exists_cons_of_ne_nil (toText_ne_nil hash)
  rw [htext, List.cons_append, List.cons_append, List.cons_prefix_cons, List.cons_prefix_cons] at hstart
  have hmem : c ∈ hash.toText := by
    rw [hstart.2.1, htext]
    exact List.mem_cons_self
  exact notMem_toText hc hash hmem

/-! ### What is listed -/

/-- A torrent's path is not the root, the list or below it. -/
theorem not_list_torrent (hash : InfoHash) (rest : List Char) :
    '/' :: hash.toText ++ rest ≠ ['/'] ∧ '/' :: hash.toText ++ rest ≠ "/TR".toList ∧
      stripPrefix "/TR/".toList ('/' :: hash.toText ++ rest) = none := by
  have hlist : ∀ front : List Char, "/T".toList <+: front →
      ¬ front <+: '/' :: hash.toText ++ rest := by
    intro front hfront hpath
    exact torrentPath_ne hash rest "/T".toList ⟨'T', [], rfl, by decide⟩ (hfront.trans hpath)
  refine ⟨?_, ?_, if_neg (hlist _ ⟨['R', '/'], rfl⟩)⟩
  · intro h
    rw [List.cons_append, List.cons_inj_right] at h
    exact toText_ne_nil hash (List.append_eq_nil_iff.mp h).1
  · intro h
    exact hlist "/TR".toList ⟨['R'], rfl⟩ (h ▸ List.prefix_rfl)

theorem find?_of_unique {α : Type} {p : α → Bool} {l : List α} {a : α} (ha : a ∈ l) (hp : p a = true)
    (huniq : ∀ b ∈ l, p b = true → b = a) : l.find? p = some a := by
  cases hfind : l.find? p with
  | none => exact absurd hp (List.find?_eq_none.mp hfind a ha)
  | some b => rw [huniq b (List.mem_of_find?_eq_some hfind) (List.find?_some hfind)]

/-- Forty digits in the path of a torrent are the torrent's. -/
theorem toText_infix_torrent {hash other : InfoHash} (h : other.toText <:+: '/' :: hash.toText) :
    other = hash := by
  rcases List.infix_cons_iff.mp h with hprefix | hinfix
  · obtain ⟨d, text, htext⟩ := List.exists_cons_of_ne_nil (toText_ne_nil other)
    rw [htext, List.cons_prefix_cons] at hprefix
    have hmem : '/' ∈ other.toText := by
      rw [htext, hprefix.1]
      exact List.mem_cons_self
    exact absurd hmem (element_toText other).notMem
  · apply InfoHash.toText_injective
    apply hinfix.eq_of_length
    rw [InfoHash.length_toText, InfoHash.length_toText]

theorem torrentAt_torrent {torrent : TorrentView} (ht : torrent ∈ device.torrents) :
    torrentAt device ('/' :: torrent.hash.toText) = some torrent := by
  unfold torrentAt
  apply find?_of_unique ht
  · rw [decide_eq_true_eq, hashOf_eq]
    exact (List.suffix_cons '/' _).isInfix
  · intro other hother hinfix
    rw [decide_eq_true_eq, hashOf_eq] at hinfix
    exact List.inj_on_of_nodup_map device.nodup_hash hother ht (toText_infix_torrent hinfix)

/-- What browsing a torrent is to answer: its button, or its media files. -/
def contents (guess : List Char → Option (List Char)) (device : Device) (host : List Char)
    (torrent : TorrentView) : List Entry :=
  match device.added torrent.hash with
  | some loaded => fileItems guess device host loaded
  | none => []

theorem load_of_base {path : List Char} {torrent : TorrentView} (ht : torrent ∈ device.torrents)
    (hbase : (if base (dir path) = ['/'] then base path else base (dir path)) = torrent.hash.toText) :
    load guess device path host = contents guess device host torrent := by
  have hlower : torrent.hash.toText.map Char.toLower = torrent.hash.toText := hashOf_eq torrent
  have hknown : (device.torrents.any fun other => decide (other.hash = torrent.hash)) = true :=
    List.any_eq_true.mpr ⟨torrent, ht, decide_eq_true rfl⟩
  unfold load contents
  simp only
  rw [hbase, hlower, InfoHash.fromStr_toText]
  simp only
  exact if_pos hknown

theorem clean_root : Path.clean ['/'] = ['/'] := by decide

theorem load_torrent {torrent : TorrentView} (ht : torrent ∈ device.torrents) :
    load guess device ('/' :: torrent.hash.toText) host = contents guess device host torrent := by
  apply load_of_base ht
  have hdir : dir ('/' :: torrent.hash.toText) = ['/'] :=
    (dir_append [] (element_toText _).notMem).trans clean_root
  have hroot : base ['/'] = ['/'] := by decide
  rw [hdir, if_pos hroot, base_torrent]

theorem clean_torrent (hash : InfoHash) : Path.clean ('/' :: hash.toText ++ ['/']) = '/' :: hash.toText := by
  have helement := element_toText hash
  have hsplit : (hash.toText ++ '/' :: []).splitOn '/' = [hash.toText, []] := by
    rw [List.splitOn_append_cons_self, List.splitOn_eq_singleton helement.notMem, List.splitOn_nil]
    rfl
  rw [List.cons_append, Path.clean_rooted, hsplit, List.foldl_cons,
    Path.cleanStep_of_element helement]
  simp [Path.cleanStep, Text.join]

theorem load_button {torrent : TorrentView} (ht : torrent ∈ device.torrents) :
    load guess device ('/' :: torrent.hash.toText ++ "/LD".toList) host =
      contents guess device host torrent := by
  apply load_of_base ht
  have hdir : dir ('/' :: torrent.hash.toText ++ "/LD".toList) = '/' :: torrent.hash.toText :=
    (@dir_append _ "LD".toList (by decide)).trans (clean_torrent _)
  have hne : torrent.hash.toText ≠ ['/'] := by
    intro h
    exact (element_toText torrent.hash).notMem (by rw [h]; exact List.mem_cons_self)
  rw [hdir, base_torrent, if_neg hne]

theorem children_torrent {torrent : TorrentView} (ht : torrent ∈ device.torrents) :
    children u guess device ('/' :: torrent.hash.toText) host =
      if torrent.stat = 5 ∨ torrent.fileStats = [] then [loadContainer device torrent]
      else contents guess device host torrent := by
  obtain ⟨hroot, hlist, hbelow⟩ := not_list_torrent torrent.hash []
  rw [List.append_nil] at hroot hlist hbelow
  unfold children
  rw [if_neg hroot, if_neg hlist, hbelow]
  simp only
  rw [if_pos (isHashPath_torrent _), torrentAt_torrent ht, load_torrent ht]

theorem base_button (hash : InfoHash) :
    base ('/' :: hash.toText ++ "/LD".toList) = "LD".toList := by
  have hlast : MediaType.lastPart ('/' :: hash.toText ++ "/LD".toList) = "LD".toList :=
    @lastPart_append _ "LD".toList (by decide)
  rw [base_eq_lastPart (by rw [hlast]; decide), hlast]

theorem children_button {torrent : TorrentView} (ht : torrent ∈ device.torrents) :
    children u guess device ('/' :: torrent.hash.toText ++ "/LD".toList) host =
      contents guess device host torrent := by
  obtain ⟨hroot, hlist, hbelow⟩ := not_list_torrent torrent.hash "/LD".toList
  have hhash : ¬ isHashPath ('/' :: torrent.hash.toText ++ "/LD".toList) = true := by
    unfold isHashPath
    rw [base_button]
    decide
  unfold children
  rw [if_neg hroot, if_neg hlist, hbelow]
  simp only
  rw [if_neg hhash, if_pos (base_button _), load_button ht]

theorem children_category (escaped : List Char) :
    children u guess device ("/TR/".toList ++ escaped) host = byCategory u device escaped := by
  have hroot : "/TR/".toList ++ escaped ≠ ['/'] := by
    intro h
    have hlength := congrArg List.length h
    rw [List.length_append] at hlength
    exact absurd hlength (by
      have hfour : "/TR/".toList.length = 4 := by decide
      rw [hfour, List.length_singleton]
      omega)
  have hlist : "/TR/".toList ++ escaped ≠ "/TR".toList := by
    intro h
    have hlength := congrArg List.length h
    rw [List.length_append] at hlength
    exact absurd hlength (by
      have hfour : "/TR/".toList.length = 4 := by decide
      have hthree : "/TR".toList.length = 3 := by decide
      rw [hfour, hthree]
      omega)
  unfold children
  rw [if_neg hroot, if_neg hlist, stripPrefix_append]

end Rustorr.Dlna
