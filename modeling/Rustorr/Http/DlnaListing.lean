import Rustorr.Http.DlnaAddresses

/-! What the ids that are listed lead to, and the catalogs whose ids are addresses. -/

namespace Rustorr.Dlna

open Didl UrlQuery

variable (u : Casing) (guess : List Char → Option (List Char)) (device : Device) (host : List Char)

/-! ### The claim of the ids -/

/-- Browsing the whole of an object answers these entries. -/
def Answers (id : List Char) (entries : List Entry) : Prop :=
  browseEntries u guess device id "BrowseDirectChildren".toList 0 0 host =
    .ok (entries, entries.length)

/-- Asking for the object itself answers this entry. -/
def Describes (id : List Char) (entry : Entry) : Prop :=
  ∀ start count, browseEntries u guess device id "BrowseMetadata".toList start count host =
    .ok ([entry], 1)

/-- An id that is found by browsing from the root. -/
inductive Listed : List Char → Prop
  | root : Listed ['0']
  | child {id : List Char} {start count : ℤ} {answer : List Entry × ℕ} {entry : Entry} :
      Listed id →
      browseEntries u guess device id "BrowseDirectChildren".toList start count host = .ok answer →
      entry ∈ answer.1 → Listed entry.id

/-- The entries a torrent's id is to lead to: the button that loads it, or its own files. -/
def torrentEntries (torrent : TorrentView) : List Entry :=
  if torrent.stat = 5 ∨ torrent.fileStats = [] then [loadContainer device torrent]
  else contents guess device host torrent

/-- The ids are addresses: a category's leads to its torrents, as many as it says; a torrent's to
that torrent; and each one that is listed to an entry of that id. -/
structure IdsAddress : Prop where
  categories : device.torrents ≠ [] → ∀ listing, Answers u guess device host "%2FTR".toList listing →
    ∀ entry ∈ listing, ∃ category entries, entry = categoryContainer u device category ∧
      Answers u guess device host entry.id entries ∧
      entries.Perm ((ofCategory u device.torrents category).map fun torrent =>
        torrentContainer torrent (categoryId category)) ∧
      entries.length = entry.childCount
  torrents : ∀ torrent ∈ device.torrents,
    Answers u guess device host (torrentId torrent) (torrentEntries guess device host torrent) ∧
      Describes u guess device host (torrentId torrent) (torrentMetadata torrent)
  metadata : ∀ id, Listed u guess device host id →
    ∃ entry, Describes u guess device host id entry ∧ entry.id = id

/-- The categories and the file names that come back from an id as they are. -/
structure Addressable : Prop where
  categories : ∀ torrent ∈ device.torrents, Tidy (normalizeCategory u torrent.category) ∧
    hasTriplet (normalizeCategory u torrent.category) = false
  files : ∀ torrent ∈ device.torrents, ∀ loaded, device.added torrent.hash = some loaded →
    ∀ file ∈ loaded.fileStats, (MediaType.mediaKind guess file.path.toList).isSome = true →
      Tidy file.path.toList

/-- The paths whose encodings are listed. -/
inductive Address : Path → Prop
  | list : Address "/TR".toList
  | empty : Address "/NT".toList
  | category {torrent : TorrentView} : torrent ∈ device.torrents →
      Address ("/TR/".toList ++ normalizeCategory u torrent.category)
  | torrent {torrent : TorrentView} : torrent ∈ device.torrents →
      Address ('/' :: torrent.hash.toText)
  | load {torrent : TorrentView} : torrent ∈ device.torrents →
      Address ('/' :: torrent.hash.toText ++ "/LD".toList)
  | file {torrent loaded : TorrentView} {file : Coordinator.TorrentFileView} :
      torrent ∈ device.torrents → device.added torrent.hash = some loaded →
      file ∈ loaded.fileStats → (MediaType.mediaKind guess file.path.toList).isSome = true →
      Address ('/' :: torrent.hash.toText ++ '/' :: file.path.toList)

variable {u guess device host}

/-! ### Browsing an encoded path -/

theorem answers_pathEscape {rest : List Char} {entries : List Entry} :
    Answers u guess device host (pathEscape ('/' :: rest)) entries ↔
      children u guess device (readPath ('/' :: rest)) host = entries := by
  unfold Answers browseEntries
  rw [objectPath_pathEscape]
  simp only [↓reduceIte, Int.toNat_zero, List.drop_zero, lt_self_iff_false, false_and]
  constructor
  · intro h
    exact (Prod.mk.inj (Except.ok.inj h)).1
  · rintro rfl
    rfl

theorem describes_pathEscape {rest : List Char} {entry : Entry} :
    Describes u guess device host (pathEscape ('/' :: rest)) entry ↔
      metadata u device (readPath ('/' :: rest)) = some entry := by
  have hflag : "BrowseMetadata".toList ≠ "BrowseDirectChildren".toList := by decide
  unfold Describes browseEntries
  rw [objectPath_pathEscape]
  simp only [if_neg hflag, ↓reduceIte]
  cases metadata u device (readPath ('/' :: rest)) with
  | none =>
    constructor
    · intro h
      cases h 0 0
    · intro h
      cases h
  | some other =>
    constructor
    · intro h
      rw [List.head_eq_of_cons_eq (Prod.mk.inj (Except.ok.inj (h 0 0))).1]
    · intro h _ _
      rw [Option.some.inj h]

/-- Whatever part of the entries is asked for, they are among the children. -/
theorem mem_children_of_browse {rest : List Char} {start count : ℤ} {answer : List Entry × ℕ}
    {entry : Entry} (h : browseEntries u guess device (pathEscape ('/' :: rest))
      "BrowseDirectChildren".toList start count host = .ok answer) (hentry : entry ∈ answer.1) :
    entry ∈ children u guess device (readPath ('/' :: rest)) host := by
  unfold browseEntries at h
  rw [objectPath_pathEscape] at h
  simp only [↓reduceIte] at h
  rw [← Except.ok.inj h] at hentry
  simp only at hentry
  split at hentry
  · exact List.mem_of_mem_drop (List.mem_of_mem_take hentry)
  · exact List.mem_of_mem_drop hentry

theorem objectPath_root : objectPath ['0'] = .ok ['/'] := by
  unfold objectPath queryUnescape
  have hescapes : checkEscapes ['0'] = .ok () := rfl
  have hcomponent : component ['0'] = ['0'] :=
    component_eq_self_iff.mpr (by decide)
  rw [hescapes]
  simp only [Except.map]
  rw [hcomponent, if_pos rfl, clean_root, if_pos (by decide)]

/-! ### Where entries come from -/

theorem mem_contents {torrent : TorrentView} {entry : Entry}
    (h : entry ∈ contents guess device host torrent) :
    ∃ loaded file kind, device.added torrent.hash = some loaded ∧ file ∈ loaded.fileStats ∧
      MediaType.mediaKind guess file.path.toList = some kind ∧
      entry = fileItem device host loaded file kind := by
  unfold contents at h
  cases hadded : device.added torrent.hash with
  | none =>
    rw [hadded] at h
    cases h
  | some loaded =>
    rw [hadded] at h
    unfold fileItems at h
    obtain ⟨file, hfile, hitem⟩ := List.mem_filterMap.mp h
    obtain ⟨kind, hkind, rfl⟩ := Option.map_eq_some_iff.mp hitem
    exact ⟨loaded, file, kind, rfl, hfile, hkind, rfl⟩

theorem torrentId_loaded {torrent loaded : TorrentView}
    (h : device.added torrent.hash = some loaded) : torrentId loaded = torrentId torrent := by
  rw [torrentId_eq, torrentId_eq, device.hash_added _ _ h]

/-- The files are those of a torrent that is listed. -/
theorem mem_load {path : List Char} {entry : Entry} (h : entry ∈ load guess device path host) :
    ∃ torrent ∈ device.torrents, entry ∈ contents guess device host torrent := by
  unfold load at h
  simp only at h
  split at h
  · cases h
  · next infoHash _ =>
    split at h
    · next hknown =>
      obtain ⟨torrent, ht, hhash⟩ := List.any_eq_true.mp hknown
      have hsame := of_decide_eq_true hhash
      refine ⟨torrent, ht, ?_⟩
      unfold contents
      rw [hsame]
      exact h
    · cases h

/-- The kinds of entries there are under a path. -/
inductive Child (u : Casing) (guess : List Char → Option (List Char)) (device : Device)
    (host : List Char) (path : Path) : Entry → Prop
  | list : Child u guess device host path
      (.container (folder "%2FTR".toList ['0'] "Torrents".toList device.today) device.torrents.length)
  | none : Child u guess device host path
      (.container (folder "%2FNT".toList "%2FTR".toList "No Torrents".toList device.today) 0)
  | category {category : List Char} : category ∈ categoryOrder u device.torrents →
      Child u guess device host path (categoryContainer u device category)
  | empty {category escaped : List Char} : path = "/TR/".toList ++ escaped →
      category = normalizeCategory u (lossy (percentDecode escaped)) →
      Child u guess device host path
        (.container (folder "%2FNT".toList (categoryId category) "Empty".toList device.today) 0)
  | torrent {category escaped : List Char} {torrent : TorrentView} :
      path = "/TR/".toList ++ escaped →
      category = normalizeCategory u (lossy (percentDecode escaped)) →
      torrent ∈ device.torrents →
      Child u guess device host path (torrentContainer torrent (categoryId category))
  | load {torrent : TorrentView} : torrent ∈ device.torrents →
      Child u guess device host path (loadContainer device torrent)
  | file {torrent : TorrentView} {entry : Entry} : torrent ∈ device.torrents →
      entry ∈ contents guess device host torrent → Child u guess device host path entry

theorem child_of_byCategory {path : Path} {escaped : List Char} {entry : Entry}
    (hpath : path = "/TR/".toList ++ escaped) (h : entry ∈ byCategory u device escaped) :
    Child u guess device host path entry := by
  unfold byCategory at h
  simp only at h
  split at h
  · rw [List.mem_singleton.mp h]
    exact Child.empty hpath rfl
  · obtain ⟨torrent, ht, rfl⟩ := List.mem_map.mp h
    rw [List.mem_insertionSort] at ht
    exact Child.torrent hpath rfl (List.mem_filter.mp ht).1

theorem child_of_mem {path : Path} {entry : Entry}
    (h : entry ∈ children u guess device path host) : Child u guess device host path entry := by
  have hload : entry ∈ load guess device path host → Child u guess device host path entry := by
    intro hmem
    obtain ⟨torrent, ht, hentry⟩ := mem_load hmem
    exact Child.file ht hentry
  unfold children at h
  split at h
  · rw [List.mem_singleton.mp h]
    exact Child.list
  · split at h
    · unfold categories at h
      split at h
      · rw [List.mem_singleton.mp h]
        exact Child.none
      · obtain ⟨category, hcategory, rfl⟩ := List.mem_map.mp h
        exact Child.category hcategory
    · split at h
      · next hstrip => exact child_of_byCategory (eq_of_stripPrefix hstrip) h
      · split at h
        · split at h
          · cases h
          · next torrent hat =>
            have ht : torrent ∈ device.torrents := List.mem_of_find?_eq_some hat
            split at h
            · rw [List.mem_singleton.mp h]
              exact Child.load ht
            · exact hload h
        · split at h
          · exact hload h
          · cases h

theorem fileItem_id {torrent loaded : TorrentView} {file : Coordinator.TorrentFileView}
    {kind : List Char} (hadded : device.added torrent.hash = some loaded) :
    (fileItem device host loaded file kind).id =
        pathEscape ('/' :: torrent.hash.toText ++ '/' :: file.path.toList) ∧
      (fileItem device host loaded file kind).parentId = torrentId torrent := by
  constructor
  · rw [← device.hash_added _ _ hadded, ← fileId_eq]
    rfl
  · exact torrentId_loaded hadded

/-- What is listed is the encoding of an address. -/
theorem Child.address {path : Path} {entry : Entry} (h : Child u guess device host path entry) :
    ∃ address, Address u guess device ('/' :: address) ∧ entry.id = pathEscape ('/' :: address) := by
  cases h with
  | list => exact ⟨"TR".toList, Address.list, listId_eq⟩
  | none => exact ⟨"NT".toList, Address.empty, emptyId_eq⟩
  | @category category hcategory =>
    obtain ⟨torrent, ht, rfl⟩ := mem_categoryOrder.mp hcategory
    exact ⟨_, Address.category ht, rfl⟩
  | empty => exact ⟨"NT".toList, Address.empty, emptyId_eq⟩
  | @torrent category escaped torrent _ _ ht => exact ⟨_, Address.torrent ht, torrentId_eq torrent⟩
  | @load torrent ht => exact ⟨_, Address.load ht, loadId_eq torrent⟩
  | @file torrent entry ht hentry =>
    obtain ⟨loaded, file, kind, hadded, hfile, hkind, rfl⟩ := mem_contents hentry
    exact ⟨_, Address.file ht hadded hfile (hkind ▸ rfl), (fileItem_id hadded).1⟩

theorem Listed.address {id : List Char} (h : Listed u guess device host id) :
    id = ['0'] ∨ ∃ address, Address u guess device ('/' :: address) ∧ id = pathEscape ('/' :: address) := by
  induction h with
  | root => exact Or.inl rfl
  | @child id start count answer entry _ hbrowse hentry ih =>
    right
    rcases ih with rfl | ⟨address, haddress, rfl⟩
    · unfold browseEntries at hbrowse
      rw [objectPath_root] at hbrowse
      simp only [↓reduceIte] at hbrowse
      rw [← Except.ok.inj hbrowse] at hentry
      refine (@child_of_mem u guess device host ['/'] _ ?_).address
      simp only at hentry
      split at hentry
      · exact List.mem_of_mem_drop (List.mem_of_mem_take hentry)
      · exact List.mem_of_mem_drop hentry
    · exact (child_of_mem (mem_children_of_browse hbrowse hentry)).address

/-! ### Metadata -/

theorem metadata_category (escaped : List Char) : ∃ entry,
    metadata u device ("/TR/".toList ++ escaped) = some entry ∧
      entry.id = pathEscape ("/TR/".toList ++ escaped) := by
  have hroot : "/TR/".toList ++ escaped ≠ ['/'] := by
    intro h
    exact absurd (List.tail_eq_of_cons_eq h) (List.cons_ne_nil _ _)
  unfold metadata
  rw [if_neg hroot, stripPrefix_append]
  exact ⟨_, rfl, rfl⟩

theorem metadata_list : ∃ entry, metadata u device "/TR".toList = some entry ∧
    entry.id = pathEscape "/TR".toList := by
  have hroot : "/TR".toList ≠ ['/'] := by decide
  have hbelow : stripPrefix "/TR/".toList "/TR".toList = none := by decide
  have hbase : base "/TR".toList = "TR".toList := by decide
  unfold metadata
  rw [if_neg hroot, hbelow]
  simp only
  rw [if_pos hbase, ← listId_eq]
  exact ⟨_, rfl, rfl⟩

theorem metadata_empty : ∃ entry, metadata u device "/NT".toList = some entry ∧
    entry.id = pathEscape "/NT".toList := by
  have hroot : "/NT".toList ≠ ['/'] := by decide
  have hbelow : stripPrefix "/TR/".toList "/NT".toList = none := by decide
  have hbase : base "/NT".toList ≠ "TR".toList := by decide
  have hhash : ¬ isHashPath "/NT".toList = true := by decide
  have hload : base "/NT".toList ≠ "LD".toList := by decide
  unfold metadata
  rw [if_neg hroot, hbelow]
  simp only
  rw [if_neg hbase, if_neg hhash]
  unfold plainMetadata
  simp only
  rw [if_neg hload]
  exact ⟨_, rfl, rfl⟩

theorem toText_ne {hash : InfoHash} {text : List Char} (h : text.length < 40) : hash.toText ≠ text := by
  intro heq
  have hlength := hash.length_toText
  rw [heq] at hlength
  exact absurd hlength (Nat.ne_of_lt h)

theorem metadata_torrent {torrent : TorrentView} (ht : torrent ∈ device.torrents) :
    metadata u device ('/' :: torrent.hash.toText) = some (torrentMetadata torrent) := by
  obtain ⟨hroot, -, hbelow⟩ := not_list_torrent torrent.hash []
  rw [List.append_nil] at hroot hbelow
  have hbase : base ('/' :: torrent.hash.toText) ≠ "TR".toList := by
    rw [base_torrent]
    exact toText_ne (by decide)
  unfold metadata
  rw [if_neg hroot, hbelow]
  simp only
  rw [if_neg hbase, if_pos (isHashPath_torrent _), torrentAt_torrent ht]
  rfl

theorem metadata_load (hash : InfoHash) : ∃ entry,
    metadata u device ('/' :: hash.toText ++ "/LD".toList) = some entry ∧
      entry.id = pathEscape ('/' :: hash.toText ++ "/LD".toList) := by
  obtain ⟨hroot, -, hbelow⟩ := not_list_torrent hash "/LD".toList
  have hbase : base ('/' :: hash.toText ++ "/LD".toList) ≠ "TR".toList := by
    rw [base_button]
    decide
  have hhash : ¬ isHashPath ('/' :: hash.toText ++ "/LD".toList) = true := by
    unfold isHashPath
    rw [base_button]
    decide
  have hdir : dir ('/' :: hash.toText ++ "/LD".toList) = '/' :: hash.toText :=
    (@dir_append _ "LD".toList (by decide)).trans (clean_torrent _)
  have hload : "%2FLD".toList = pathEscape "/LD".toList := by decide
  unfold metadata
  rw [if_neg hroot, hbelow]
  simp only
  rw [if_neg hbase, if_neg hhash]
  unfold plainMetadata
  simp only
  rw [if_pos (base_button hash), hdir, hload, ← pathEscape_append]
  exact ⟨_, rfl, rfl⟩

/-- A name with a dot is no list, no torrent and no button. -/
theorem base_of_dot {path : List Char} (h : '.' ∈ base path) :
    base path ≠ "TR".toList ∧ ¬ isHashPath path = true ∧ base path ≠ "LD".toList := by
  refine ⟨?_, ?_, ?_⟩
  · intro heq
    rw [heq] at h
    revert h
    decide
  · intro hhash
    unfold isHashPath at hhash
    rw [Bool.and_eq_true, List.all_eq_true] at hhash
    exact absurd (hhash.2 '.' h) (by decide)
  · intro heq
    rw [heq] at h
    revert h
    decide

theorem base_file {hash : InfoHash} {path kind : List Char}
    (h : MediaType.mediaKind guess path = some kind) :
    '.' ∈ base ('/' :: hash.toText ++ '/' :: path) := by
  have hdot := MediaType.dot_mem_of_mediaKind h
  have hlast : MediaType.lastPart ('/' :: hash.toText ++ '/' :: path) = MediaType.lastPart path :=
    lastPart_append_cons _ _
  have hne : MediaType.lastPart ('/' :: hash.toText ++ '/' :: path) ≠ [] := by
    rw [hlast]
    exact List.ne_nil_of_mem hdot
  rw [base_eq_lastPart hne, hlast]
  exact hdot

theorem metadata_file {hash : InfoHash} {path kind : List Char}
    (h : MediaType.mediaKind guess path = some kind) : ∃ entry,
    metadata u device ('/' :: hash.toText ++ '/' :: path) = some entry ∧
      entry.id = pathEscape ('/' :: hash.toText ++ '/' :: path) := by
  obtain ⟨hroot, -, hbelow⟩ := not_list_torrent hash ('/' :: path)
  obtain ⟨hbase, hhash, hload⟩ := base_of_dot (@base_file guess hash _ _ h)
  unfold metadata
  rw [if_neg hroot, hbelow]
  simp only
  rw [if_neg hbase, if_neg hhash]
  unfold plainMetadata
  simp only
  rw [if_neg hload]
  exact ⟨_, rfl, rfl⟩

/-- What metadata of a path carries the id of a file's path is that file's. -/
theorem path_eq_of_metadata {path : Path} {hash : InfoHash} {file kind : List Char} {entry : Entry}
    (hkind : MediaType.mediaKind guess file = some kind) (h : metadata u device path = some entry)
    (hid : entry.id = pathEscape ('/' :: hash.toText ++ '/' :: file)) :
    path = '/' :: hash.toText ++ '/' :: file := by
  obtain ⟨-, hlist, -⟩ := not_list_torrent hash ('/' :: file)
  unfold metadata at h
  split at h
  · rw [← Option.some.inj h, List.cons_append, pathEscape_slash] at hid
    exact absurd (List.head_eq_of_cons_eq hid) (by decide)
  · split at h
    · rw [← Option.some.inj h] at hid
      exact pathEscape_injective hid
    · split at h
      · rw [← Option.some.inj h] at hid
        have hsame : pathEscape "/TR".toList = pathEscape ('/' :: hash.toText ++ '/' :: file) :=
          listId_eq.symm.trans hid
        exact absurd (pathEscape_injective hsame).symm hlist
      · split at h
        · obtain ⟨torrent, -, rfl⟩ := Option.map_eq_some_iff.mp h
          have hsame : pathEscape ('/' :: torrent.hash.toText) =
              pathEscape ('/' :: hash.toText ++ '/' :: file) := (torrentId_eq torrent).symm.trans hid
          have hslash : '/' ∈ torrent.hash.toText := by
            rw [List.tail_eq_of_cons_eq (pathEscape_injective hsame)]
            exact List.mem_append_right _ List.mem_cons_self
          exact absurd hslash (element_toText _).notMem
        · rw [← Option.some.inj h] at hid
          unfold plainMetadata at hid
          simp only at hid
          split at hid
          · have hload : "%2FLD".toList = pathEscape "/LD".toList := by decide
            have hsame : pathEscape (dir path ++ "/LD".toList) =
                pathEscape ('/' :: hash.toText ++ '/' :: file) := by
              rw [pathEscape_append, ← hload]
              exact hid
            -- the file's name has a dot, and the button's has none
            have hlast : MediaType.lastPart ('/' :: hash.toText ++ '/' :: file) = "LD".toList := by
              rw [← pathEscape_injective hsame]
              exact @lastPart_append _ "LD".toList (by decide)
            have hdot := MediaType.dot_mem_of_mediaKind hkind
            rw [lastPart_append_cons] at hlast
            rw [hlast] at hdot
            exact absurd hdot (by decide)
          · exact pathEscape_injective hid

/-! ### Categories -/

/-- A category that comes back lists its torrents. -/
theorem byCategory_perm {category : List Char} (hne : ofCategory u device.torrents category ≠ [])
    (hcategory : normalizeCategory u (lossy (percentDecode category)) = category) :
    (byCategory u device category).Perm ((ofCategory u device.torrents category).map fun torrent =>
      torrentContainer torrent (categoryId category)) := by
  have hsorted := List.perm_insertionSort
    (fun a b : TorrentView => textLe a.title b.title = true) (ofCategory u device.torrents category)
  have hsome : (ofCategory u device.torrents category).insertionSort
      (fun a b => textLe a.title b.title = true) ≠ [] := by
    intro hnil
    rw [hnil] at hsorted
    exact hne (List.nil_perm.mp hsorted)
  unfold byCategory
  simp only
  rw [hcategory, if_neg hsome]
  exact hsorted.map _

/-- Only the directory of a category has its id for a parent. -/
theorem Child.category_eq {path : Path} {entry : Entry} {category : List Char}
    (h : Child u guess device host path entry) (hparent : entry.parentId = categoryId category) :
    ∃ escaped, path = "/TR/".toList ++ escaped ∧
      normalizeCategory u (lossy (percentDecode escaped)) = category := by
  have hbelow : ∀ other, pathEscape other = categoryId category → ∃ rest, other = "/TR/".toList ++ rest :=
    fun other heq => ⟨category, pathEscape_injective heq⟩
  have hlist : ¬ "%2FTR".toList = categoryId category := by
    intro heq
    rw [listId_eq] at heq
    obtain ⟨rest, hrest⟩ := hbelow _ heq
    exact absurd hrest (by
      intro hrest
      have hlength := congrArg List.length hrest
      rw [List.length_append] at hlength
      have hfour : "/TR/".toList.length = 4 := by decide
      have hthree : "/TR".toList.length = 3 := by decide
      omega)
  have htorrent : ∀ torrent : TorrentView, ¬ torrentId torrent = categoryId category := by
    intro torrent heq
    rw [torrentId_eq] at heq
    obtain ⟨rest, hrest⟩ := hbelow _ heq
    have hnone := (not_list_torrent torrent.hash []).2.2
    rw [List.append_nil, hrest, stripPrefix_append] at hnone
    cases hnone
  have hescape : ∀ other, categoryId other = categoryId category → other = category :=
    fun other heq => List.append_cancel_left (pathEscape_injective heq)
  cases h with
  | list =>
    have hhead : ['0'] = categoryId category := hparent
    unfold categoryId at hhead
    rw [show "/TR/".toList ++ category = '/' :: ("TR/".toList ++ category) from rfl,
      pathEscape_slash] at hhead
    exact absurd (List.head_eq_of_cons_eq hhead) (by decide)
  | none => exact absurd hparent hlist
  | category _ => exact absurd hparent hlist
  | @empty other escaped hpath hother => exact ⟨escaped, hpath, hother ▸ hescape _ hparent⟩
  | @torrent other escaped _ hpath hother _ => exact ⟨escaped, hpath, hother ▸ hescape _ hparent⟩
  | load _ => exact absurd hparent (htorrent _)
  | file _ hentry =>
    obtain ⟨loaded, file, kind, -, -, -, rfl⟩ := mem_contents hentry
    exact absurd hparent (htorrent loaded)

/-- A category whose id leads to it had nothing to lose. -/
theorem tidy_of_read (h : u.Lawful) {category escaped : List Char}
    (hpath : readPath ("/TR/".toList ++ category) = "/TR/".toList ++ escaped)
    (hcategory : normalizeCategory u (lossy (percentDecode escaped)) = category) :
    Tidy category ∧ hasTriplet category = false := by
  rcases markCount_normalizeCategory h escaped with hknown | hcount
  · rw [hknown] at hcategory
    subst hcategory
    exact ⟨tidy_of_element (by constructor <;> decide) (by decide), by decide⟩
  · rw [hcategory] at hcount
    have hle : markCount isMark (readPath ("/TR/".toList ++ category)) ≤
        markCount isMark ("/TR/".toList ++ category) :=
      markCount_readPath_le ("TR".toList ++ '/' :: category)
    rw [hpath, markCount_append, markCount_append] at hle
    have hno : hasTriplet escaped = false := by
      cases htriplet : hasTriplet escaped with
      | false => rfl
      | true =>
        rw [htriplet, Bool.toNat_true] at hcount
        omega
    have hkept : markCount isMark ("/TR/".toList ++ category) ≤
        markCount isMark (readPath ("/TR/".toList ++ category)) := by
      rw [hpath, markCount_append, markCount_append]
      omega
    have htidy : Tidy ("TR".toList ++ '/' :: category) := tidy_of_le (List.cons_ne_nil _ _) hkept
    have hback : readPath ("/TR/".toList ++ category) = "/TR/".toList ++ category :=
      readPath_of_tidy htidy
    rw [hpath] at hback
    rw [List.append_cancel_left hback] at hno
    exact ⟨(tidy_append_iff tidy_list).mp htidy, hno⟩

/-! ### Addresses and listings -/

theorem answers_list {entries : List Entry} :
    Answers u guess device host "%2FTR".toList entries ↔ categories u device = entries := by
  have hread : readPath "/TR".toList = "/TR".toList := readPath_of_tidy tidy_list
  have hchildren : children u guess device "/TR".toList host = categories u device := by
    unfold children
    rw [if_neg (by decide), if_pos rfl]
  rw [listId_eq]
  refine (@answers_pathEscape u guess device host "TR".toList _).trans ?_
  rw [show '/' :: "TR".toList = "/TR".toList from rfl, hread, hchildren]

theorem answers_torrent {torrent : TorrentView} (ht : torrent ∈ device.torrents) :
    Answers u guess device host (torrentId torrent) (torrentEntries guess device host torrent) := by
  rw [torrentId_eq, answers_pathEscape, readPath_of_tidy (tidy_toText _), children_torrent ht]
  rfl

theorem describes_torrent {torrent : TorrentView} (ht : torrent ∈ device.torrents) :
    Describes u guess device host (torrentId torrent) (torrentMetadata torrent) := by
  rw [torrentId_eq, describes_pathEscape, readPath_of_tidy (tidy_toText _), metadata_torrent ht]

theorem describes_root : Describes u guess device host ['0']
    (.container (searchable (folder ['0'] "-1".toList "TorrServer".toList device.today)) 1) := by
  have hflag : "BrowseMetadata".toList ≠ "BrowseDirectChildren".toList := by decide
  intro start count
  unfold browseEntries
  rw [objectPath_root]
  simp only [if_neg hflag, ↓reduceIte, metadata]

/-- In an addressable catalog each address is described by its own id. -/
theorem Address.describes (h : Addressable u guess device) {address : List Char}
    (haddress : Address u guess device ('/' :: address)) : ∃ entry,
      Describes u guess device host (pathEscape ('/' :: address)) entry ∧
        entry.id = pathEscape ('/' :: address) := by
  have hdescribes : Tidy address → (∃ entry, metadata u device ('/' :: address) = some entry ∧
      entry.id = pathEscape ('/' :: address)) → ∃ entry,
        Describes u guess device host (pathEscape ('/' :: address)) entry ∧
          entry.id = pathEscape ('/' :: address) := by
    rintro htidy ⟨entry, hentry, hid⟩
    refine ⟨entry, ?_, hid⟩
    rw [describes_pathEscape, readPath_of_tidy htidy, hentry]
  generalize hpath : '/' :: address = path at haddress
  cases haddress with
  | list =>
    obtain rfl := List.tail_eq_of_cons_eq hpath
    exact hpath ▸ hdescribes tidy_list metadata_list
  | empty =>
    obtain rfl := List.tail_eq_of_cons_eq hpath
    exact hpath ▸ hdescribes tidy_empty metadata_empty
  | @category torrent ht =>
    obtain rfl := List.tail_eq_of_cons_eq hpath
    exact hdescribes ((tidy_append_iff tidy_list).mpr (h.categories torrent ht).1)
      (metadata_category _)
  | @torrent torrent ht =>
    obtain rfl := List.tail_eq_of_cons_eq hpath
    exact hdescribes (tidy_toText _) ⟨_, metadata_torrent ht, torrentId_eq torrent⟩
  | @load torrent ht =>
    obtain rfl := List.tail_eq_of_cons_eq hpath
    exact hdescribes ((tidy_append_iff (tidy_toText _)).mpr tidy_load) (metadata_load _)
  | @file torrent loaded file ht hadded hfile hkind =>
    obtain rfl := List.tail_eq_of_cons_eq hpath
    obtain ⟨kind, hkind'⟩ := Option.isSome_iff_exists.mp hkind
    exact hdescribes ((tidy_append_iff (tidy_toText _)).mpr
      (h.files torrent ht loaded hadded file hfile hkind)) (metadata_file hkind')

theorem idsAddress_of_addressable (hu : u.Lawful) (h : Addressable u guess device) :
    IdsAddress u guess device host := by
  constructor
  · intro hne listing hlisting entry hentry
    rw [answers_list] at hlisting
    unfold categories at hlisting
    rw [if_neg hne] at hlisting
    subst hlisting
    obtain ⟨category, hcategory, rfl⟩ := List.mem_map.mp hentry
    obtain ⟨torrent, ht, rfl⟩ := mem_categoryOrder.mp hcategory
    obtain ⟨htidy, htriplet⟩ := h.categories torrent ht
    generalize hc : normalizeCategory u torrent.category = category at htidy htriplet
    have hsome : ofCategory u device.torrents category ≠ [] :=
      List.ne_nil_of_mem (List.mem_filter.mpr ⟨ht, decide_eq_true hc⟩)
    have hsame : normalizeCategory u (lossy (percentDecode category)) = category := by
      unfold lossy
      rw [percentDecode_of_not_hasTriplet htriplet, Utf8.decode_encode, Option.getD_some, ← hc]
      exact normalizeCategory_normalizeCategory hu _
    have hperm := @byCategory_perm u device _ hsome hsame
    have hread : readPath ("/TR/".toList ++ category) = "/TR/".toList ++ category :=
      readPath_of_tidy ((tidy_append_iff tidy_list).mpr htidy)
    refine ⟨category, byCategory u device category, rfl, ?_, hperm, ?_⟩
    · refine (@answers_pathEscape u guess device host ("TR".toList ++ '/' :: category) _).mpr ?_
      exact (congrArg (fun path => children u guess device path host) hread).trans
        (children_category category)
    · rw [hperm.length_eq, List.length_map]
      rfl
  · exact fun torrent ht => ⟨answers_torrent ht, describes_torrent ht⟩
  · intro id hid
    rcases hid.address with rfl | ⟨address, haddress, rfl⟩
    · exact ⟨_, describes_root, rfl⟩
    · exact haddress.describes h

/-! ### What the ids say about the catalog -/

theorem listed_of_answers {id : List Char} {entries : List Entry} {entry : Entry}
    (hid : Listed u guess device host id) (h : Answers u guess device host id entries)
    (hentry : entry ∈ entries) : Listed u guess device host entry.id :=
  Listed.child hid h hentry

theorem listed_list : Listed u guess device host "%2FTR".toList := by
  have hroot : Answers u guess device host ['0'] (rootChildren device) := by
    unfold Answers browseEntries
    rw [objectPath_root]
    rfl
  exact listed_of_answers Listed.root hroot (List.mem_singleton_self _)

/-- Where the categories lead to their torrents, every torrent is found. -/
theorem read_of_idsAddress (h : IdsAddress u guess device host) {torrent : TorrentView}
    (ht : torrent ∈ device.torrents) :
    Listed u guess device host (torrentId torrent) ∧ ∃ escaped,
      readPath ("/TR/".toList ++ normalizeCategory u torrent.category) = "/TR/".toList ++ escaped ∧
        normalizeCategory u (lossy (percentDecode escaped)) =
          normalizeCategory u torrent.category := by
  have hne : device.torrents ≠ [] := List.ne_nil_of_mem ht
  have hlisting : Answers u guess device host "%2FTR".toList (categories u device) :=
    answers_list.mpr rfl
  have hmem : categoryContainer u device (normalizeCategory u torrent.category) ∈
      categories u device := by
    unfold categories
    rw [if_neg hne]
    exact List.mem_map_of_mem (mem_categoryOrder.mpr ⟨torrent, ht, rfl⟩)
  obtain ⟨category, entries, hcategory, hentries, hperm, -⟩ := h.categories hne _ hlisting _ hmem
  obtain rfl : normalizeCategory u torrent.category = category := by
    have hid : categoryId (normalizeCategory u torrent.category) = categoryId category :=
      congrArg Entry.id hcategory
    exact List.append_cancel_left (pathEscape_injective hid)
  have hentry : torrentContainer torrent (categoryId (normalizeCategory u torrent.category)) ∈
      entries :=
    hperm.mem_iff.mpr (List.mem_map_of_mem (List.mem_filter.mpr ⟨ht, decide_eq_true rfl⟩))
  refine ⟨listed_of_answers (listed_of_answers listed_list hlisting hmem) hentries hentry, ?_⟩
  have hchildren : children u guess device
      (readPath ("/TR/".toList ++ normalizeCategory u torrent.category)) host = entries :=
    (@answers_pathEscape u guess device host
      ("TR".toList ++ '/' :: normalizeCategory u torrent.category) _).mp hentries
  rw [← hchildren] at hentry
  exact (child_of_mem hentry).category_eq rfl

/-- The files of a torrent that is found are found. -/
theorem listed_contents {torrent : TorrentView} {entry : Entry} (ht : torrent ∈ device.torrents)
    (hlisted : Listed u guess device host (torrentId torrent))
    (hentry : entry ∈ contents guess device host torrent) :
    Listed u guess device host entry.id := by
  have hanswers := @answers_torrent u guess device host torrent ht
  unfold torrentEntries at hanswers
  split at hanswers
  · have hload : Listed u guess device host (loadId torrent) :=
      listed_of_answers hlisted hanswers (List.mem_singleton_self _)
    have hbutton : Answers u guess device host (loadId torrent)
        (contents guess device host torrent) := by
      have htidy : Tidy (torrent.hash.toText ++ '/' :: "LD".toList) :=
        (tidy_append_iff (tidy_toText _)).mpr tidy_load
      rw [loadId_eq]
      refine (@answers_pathEscape u guess device host
        (torrent.hash.toText ++ '/' :: "LD".toList) _).mpr ?_
      rw [readPath_of_tidy htidy]
      exact children_button ht
    exact listed_of_answers hload hbutton hentry
  · exact listed_of_answers hlisted hanswers hentry

theorem addressable_of_idsAddress (hu : u.Lawful) (h : IdsAddress u guess device host) :
    Addressable u guess device := by
  constructor
  · intro torrent ht
    obtain ⟨-, escaped, hpath, hcategory⟩ := read_of_idsAddress h ht
    exact tidy_of_read hu hpath hcategory
  · intro torrent ht loaded hadded file hfile hkind
    obtain ⟨kind, hkind⟩ := Option.isSome_iff_exists.mp hkind
    have hentry : fileItem device host loaded file kind ∈ contents guess device host torrent := by
      unfold contents fileItems
      rw [hadded]
      exact List.mem_filterMap.mpr ⟨file, hfile, by rw [hkind]; rfl⟩
    have hlisted := listed_contents ht (read_of_idsAddress h ht).1 hentry
    obtain ⟨entry, hdescribes, hid⟩ := h.metadata _ hlisted
    rw [(fileItem_id hadded).1] at hdescribes hid
    rw [List.cons_append, describes_pathEscape] at hdescribes
    have hpath := path_eq_of_metadata hkind hdescribes hid
    rw [← List.cons_append, List.cons_append] at hpath
    have htidy := (readPath_eq_self_iff
      (List.append_ne_nil_of_left_ne_nil (toText_ne_nil _) _)).mp hpath
    exact (tidy_append_iff (tidy_toText _)).mp htidy

/-! ### Two catalogs -/

/-- Lower case of ASCII, and of the sigma. -/
def asciiCasing : Casing where
  lower := fun c => if c = 'Σ' then ['σ'] else [c.toLower]
  finalSigma := fun _ _ => false

theorem toLower_cases (c : Char) : c.toLower = c ∨ c < '\x80' := by
  unfold Char.toLower
  split
  · next hupper => exact Or.inr (UInt32.lt_of_le_of_lt hupper.2 (by decide))
  · exact Or.inl rfl

theorem lawful_asciiCasing : asciiCasing.Lawful := by
  have hlower : ∀ c d, d ∈ asciiCasing.lower c → c = 'Σ' ∧ d = 'σ' ∨ c ≠ 'Σ' ∧ d = c.toLower := by
    intro c d hd
    unfold asciiCasing at hd
    simp only at hd
    split at hd
    · next hc => exact Or.inl ⟨hc, List.mem_singleton.mp hd⟩
    · next hc => exact Or.inr ⟨hc, List.mem_singleton.mp hd⟩
  have hascii : ∀ c, c < '\x80' → asciiCasing.lower c = [c.toLower] := by
    intro c hc
    apply if_neg
    rintro rfl
    exact absurd hc (by decide)
  constructor
  · exact hascii
  · intro c hc d hd hlt
    rcases hlower c d hd with ⟨-, rfl⟩ | ⟨-, rfl⟩
    · exact absurd hlt (by decide)
    · rcases toLower_cases c with hsame | hsmall
      · exact absurd (hsame ▸ hlt) hc
      · exact absurd hsmall hc
  · intro c d hd
    rcases hlower c d hd with ⟨-, rfl⟩ | ⟨hne, rfl⟩
    · decide
    · rcases toLower_cases c with hsame | hsmall
      · rw [hsame]
        exact (if_neg hne).trans (by rw [hsame])
      · exact Casing.forall_ascii (P := fun c => asciiCasing.lower c.toLower = [c.toLower])
          (by decide) hsmall
  · intro c
    unfold asciiCasing
    simp only
    split
    · exact List.cons_ne_nil _ _
    · exact List.cons_ne_nil _ _
  · intro c hc d hd
    rcases hlower c d hd with ⟨-, rfl⟩ | ⟨-, rfl⟩
    · decide
    · rcases toLower_cases c with hsame | hsmall
      · rw [hsame]
        exact hc
      · revert hc
        exact Casing.forall_ascii (P := fun c =>
          Utf8.isWhitespace c = false → Utf8.isWhitespace c.toLower = false) (by decide) hsmall
  · rfl
  · decide

theorem length_zeroBytes : (List.replicate 20 (0 : UInt8)).length = 20 := rfl

def zeroHash : InfoHash := ⟨List.replicate 20 0, length_zeroBytes⟩

/-- A torrent of this category. -/
def torrentOf (category : List Char) : TorrentView :=
  ⟨"a".toList, category, [], 0, none, zeroHash, 5, []⟩

theorem nodup_torrentOf (category : List Char) :
    ([torrentOf category].map TorrentView.hash).Nodup := List.nodup_singleton _

theorem hash_added_none : ∀ hash torrent, (none : Option TorrentView) = some torrent →
    torrent.hash = hash := fun _ _ h => nomatch h

/-- A catalog of one torrent, of this category. -/
def deviceOf (category : List Char) : Device where
  torrents := [torrentOf category]
  added := fun _ => none
  webPort := 8090
  today := []
  nodup_hash := nodup_torrentOf category
  hash_added := hash_added_none

/-- The ids are addresses exactly where no category and no media file has a plus sign or a part
that cleaning takes away in its name, and no category two digits after a percent sign. -/
theorem ids_address_iff (hu : u.Lawful) :
    IdsAddress u guess device host ↔ Addressable u guess device :=
  ⟨addressable_of_idsAddress hu, idsAddress_of_addressable hu⟩

/-- A catalog of films is one of them. -/
theorem ids_address_films :
    IdsAddress asciiCasing (fun _ => none) (deviceOf " Movie".toList) "h".toList := by
  apply (ids_address_iff lawful_asciiCasing).mpr
  constructor
  · intro torrent ht
    rw [List.mem_singleton.mp ht]
    have hcategory : normalizeCategory asciiCasing (torrentOf " Movie".toList).category =
        "movie".toList := by decide
    rw [hcategory]
    exact ⟨tidy_of_element (by constructor <;> decide) (by decide), by decide⟩
  · intro torrent _ loaded hadded
    cases hadded

/-- A category with a plus sign in its name is never found again. -/
theorem plus_is_lost : ¬ ∀ u guess device host, u.Lawful → IdsAddress u guess device host := by
  intro h
  have haddress := addressable_of_idsAddress lawful_asciiCasing
    (h asciiCasing (fun _ => none) (deviceOf "r+b".toList) [] lawful_asciiCasing)
  have htidy := (haddress.categories _ List.mem_cons_self).1
  have hcategory : normalizeCategory asciiCasing (torrentOf "r+b".toList).category =
      "r+b".toList := by decide
  exact absurd (hcategory ▸ htidy.plus) (by decide)

end Rustorr.Dlna
