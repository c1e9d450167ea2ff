import Rustorr.Vfs.TorrentFs

/-! What paths open: the listings of directories and the addresses of files. -/

namespace Rustorr.Vfs

open Rustorr.Path (Element)

namespace Core

variable (core : Core)

/-! ### Names and the nodes they lead to -/

theorem walk_file {node : Node} (h : node.isFile = true) (elements : List (List Char)) :
    core.walk node elements = .ok node := by
  cases elements with
  | nil => rfl
  | cons element elements => rw [walk, if_pos h]

theorem walk_append (node : Node) (a b : List (List Char)) :
    core.walk node (a ++ b) =
      match core.walk node a with
      | .error e => .error e
      | .ok node => core.walk node b := by
  induction a generalizing node with
  | nil => rfl
  | cons element a ih =>
    rw [List.cons_append, walk, walk]
    split
    · rename_i hfile
      exact (core.walk_file hfile b).symm
    · cases core.readDir node with
      | error e => rfl
      | ok children =>
        simp only
        cases children.find? fun child => child.info.name = element with
        | none => rfl
        | some child => exact ih child

/-- `open` follows the parts of a name from the root. -/
theorem openPath_eq (name : Path) :
    core.openPath name =
      if ['.', '.'] ∈ Path.parts name then .error .invalid
      else core.walk .root (Path.parts name) := by
  have hne : ∀ p ∈ Path.parts name, p ≠ [] := fun p hp => (Path.mem_parts hp).1
  have hslash : ∀ p ∈ Path.parts name, '/' ∉ p := fun p hp => (Path.mem_parts hp).2.2.1
  have hdot : ∀ p ∈ Path.parts name, p ≠ ['.'] := fun p hp => (Path.mem_parts hp).2.1
  -- past the leading slash the clean name is its joined parts
  have hmain : ∀ joined, joined = Text.join '/' (Path.parts name) → Path.parts name ≠ [] →
      (if (!validPath (joined.dropWhile (· = '/'))) = true then .error .invalid
        else core.walk .root ((joined.dropWhile (· = '/')).splitOn '/')) =
      if ['.', '.'] ∈ Path.parts name then .error .invalid
      else core.walk .root (Path.parts name) := by
    rintro joined rfl hparts
    have hsplit := Text.splitOn_join hslash hparts
    have hdrop : (Text.join '/' (Path.parts name)).dropWhile (· = '/') =
        Text.join '/' (Path.parts name) := by
      obtain ⟨first, rest, hcons⟩ := List.exists_cons_of_ne_nil hparts
      have hfirst : first ∈ Path.parts name := hcons ▸ List.mem_cons_self
      obtain ⟨c, s, hcs⟩ := List.exists_cons_of_ne_nil (hne first hfirst)
      have hhead := @Path.join_head first rest (hne first hfirst)
      rw [← hcons, hcs, List.head?_cons] at hhead
      have hc : c ≠ '/' := fun e => hslash first hfirst (by rw [hcs, e]; exact List.mem_cons_self)
      cases hj : Text.join '/' (Path.parts name) with
      | nil => rfl
      | cons d t =>
        rw [hj, List.head?_cons, Option.some.injEq] at hhead
        rw [List.dropWhile_cons_of_neg]
        simpa [hhead] using hc
    have hnotdot : Text.join '/' (Path.parts name) ≠ ['.'] := by
      intro he
      rw [he] at hsplit
      have hone : [['.']] = Path.parts name := hsplit
      exact hdot ['.'] (hone ▸ List.mem_singleton_self _) rfl
    have hvalid : validPath (Text.join '/' (Path.parts name)) = true ↔
        ['.', '.'] ∉ Path.parts name := by
      unfold validPath
      rw [decide_eq_true_iff, hsplit]
      constructor
      · rintro (he | ⟨-, hall⟩) hmem
        · exact hnotdot he
        · exact (hall _ hmem).2.2 rfl
      · intro hdots
        exact Or.inr ⟨fun he => hparts ((Path.join_eq_nil hne).mp he), fun e he =>
          ⟨hne e he, hdot e he, fun hee => hdots (hee ▸ he)⟩⟩
    rw [hdrop, hsplit]
    by_cases hdots : ['.', '.'] ∈ Path.parts name
    · rw [if_pos hdots, if_pos]
      simpa using fun hv => hvalid.mp hv hdots
    · rw [if_neg hdots, if_neg]
      simpa using hvalid.mpr hdots
  unfold openPath
  rw [Path.clean_eq]
  by_cases hparts : Path.parts name = []
  · rw [hparts]
    by_cases hrooted : (name.head? == some '/') = true
    · rw [if_pos hrooted, if_pos (by simp [Text.join]), if_neg (by simp)]
      rfl
    · have hnil : Text.join '/' ([] : List (List Char)) = [] := rfl
      rw [if_neg hrooted, if_pos hnil, if_pos (Or.inl rfl), if_neg (by simp)]
      rfl
  · have hjoin : Text.join '/' (Path.parts name) ≠ [] := fun e =>
      hparts ((Path.join_eq_nil hne).mp e)
    have hnotdot : Text.join '/' (Path.parts name) ≠ ['.'] := by
      intro he
      have hsplit := Text.splitOn_join hslash hparts
      rw [he] at hsplit
      have hone : [['.']] = Path.parts name := hsplit
      exact hdot ['.'] (hone ▸ List.mem_singleton_self _) rfl
    have hhead : (Text.join '/' (Path.parts name)).head? ≠ some '/' := by
      obtain ⟨first, rest, hcons⟩ := List.exists_cons_of_ne_nil hparts
      have hfirst : first ∈ Path.parts name := hcons ▸ List.mem_cons_self
      rw [hcons, Path.join_head (hne first hfirst)]
      intro he
      exact hslash first hfirst (List.mem_of_head? he)
    by_cases hrooted : (name.head? == some '/') = true
    · rw [if_pos hrooted, if_neg (by simp [hjoin])]
      have hdrop : ('/' :: Text.join '/' (Path.parts name)).dropWhile (· = '/') =
          (Text.join '/' (Path.parts name)).dropWhile (· = '/') :=
        List.dropWhile_cons_of_pos (by simp)
      simp only [hdrop]
      exact hmain _ rfl hparts
    · rw [if_neg hrooted, if_neg hjoin, if_neg]
      · exact hmain _ rfl hparts
      · rintro (he | he | he)
        · exact hnotdot he
        · exact hhead (by rw [he]; rfl)
        · exact hjoin he

/-! ### Listings -/

theorem find?_iff_of_nodup {α β : Type} [DecidableEq β] {f : α → β} {l : List α}
    (h : (l.map f).Nodup) {b : β} {a : α} :
    (l.find? fun x => f x = b) = some a ↔ a ∈ l ∧ f a = b := by
  constructor
  · intro hfind
    exact ⟨List.mem_of_find?_eq_some hfind, by simpa using List.find?_some hfind⟩
  · rintro ⟨hmem, rfl⟩
    cases hfind : l.find? fun x => f x = f a with
    | none =>
      have hnot := List.find?_eq_none.mp hfind a hmem
      exact absurd (decide_eq_true rfl) hnot
    | some x =>
      have hx := List.mem_of_find?_eq_some hfind
      have hname : f x = f a := by simpa using List.find?_some hfind
      rw [List.inj_on_of_nodup_map h hx hmem hname]

theorem find?_of_perm {α β : Type} [DecidableEq β] {f : α → β} {l l' : List α} (hperm : l'.Perm l)
    (h : (l.map f).Nodup) (b : β) :
    (l'.find? fun x => f x = b) = l.find? fun x => f x = b := by
  refine Option.ext fun a => ?_
  rw [find?_iff_of_nodup ((hperm.map f).nodup_iff.mpr h), find?_iff_of_nodup h, hperm.mem_iff]

def names (children : List Node) : List (List Char) := children.map fun child => child.info.name

theorem names_byName {children : List Node} (h : (names children).Nodup) :
    (names (byName children)).Pairwise (· < ·) := by
  have hle : (byName children).Pairwise fun left right => left.info.name ≤ right.info.name :=
    List.pairwise_insertionSort _ _
  have hnodup : (names (byName children)).Nodup :=
    ((List.perm_insertionSort _ children).map _).nodup_iff.mpr h
  unfold names at hnodup ⊢
  rw [List.pairwise_map]
  rw [List.Nodup, List.pairwise_map] at hnodup
  exact hle.imp₂ (fun _ _ h1 h2 => lt_of_le_of_ne h1 h2) hnodup

theorem find?_byName {children : List Node} (h : (names children).Nodup) (name : List Char) :
    ((byName children).find? fun child => child.info.name = name) =
      children.find? fun child => child.info.name = name :=
  find?_of_perm (List.perm_insertionSort _ _) h name

theorem mem_destutter'_iff {α : Type} [DecidableEq α] {l : List α} {a x : α} :
    x ∈ l.destutter' (· ≠ ·) a ↔ x = a ∨ x ∈ l := by
  constructor
  · intro h
    simpa using (List.destutter'_sublist (R := (· ≠ ·)) l a).subset h
  · intro h
    induction l generalizing a with
    | nil => simpa using h
    | cons b l ih =>
      by_cases hab : a ≠ b
      · rw [List.destutter'_cons_pos _ hab]
        rcases h with rfl | h
        · exact List.mem_cons_self
        · exact List.mem_cons_of_mem _ (ih (List.mem_cons.mp h))
      · rw [List.destutter'_cons_neg _ hab]
        rw [not_not] at hab
        subst hab
        refine ih ?_
        rcases h with h | h
        · exact Or.inl h
        · exact List.mem_cons.mp h

theorem mem_categories {category : List Char} :
    category ∈ core.categories ↔ ∃ torrent ∈ core.torrents, categoryName torrent.category = category := by
  have hmem : ∀ l : List (List Char), category ∈ l.destutter (· ≠ ·) ↔ category ∈ l := by
    intro l
    cases l with
    | nil => simp
    | cons a l => rw [List.destutter_cons', mem_destutter'_iff, List.mem_cons]
  rw [categories, hmem, List.mem_insertionSort, List.mem_map]

theorem categories_pairwise : core.categories.Pairwise (· < ·) := by
  have hle : core.categories.Pairwise (· ≤ ·) :=
    (List.pairwise_insertionSort (· ≤ ·) _).sublist (List.destutter_sublist _ _)
  have hne : core.categories.IsChain (· ≠ ·) := List.isChain_destutter _ _
  rw [← List.isChain_iff_pairwise] at hle ⊢
  rw [List.isChain_iff_getElem] at hle hne ⊢
  exact fun k hk => lt_of_le_of_ne (hle k hk) (hne k hk)

theorem names_categories : names (core.categories.map .category) = core.categories := by
  rw [names, List.map_map]
  exact List.map_id _

/-- The root's children are its categories. -/
theorem find?_root (name : List Char) :
    ((byName (core.categories.map .category)).find? fun child => child.info.name = name) =
      if name ∈ core.categories then some (.category name) else none := by
  have hnodup : (names (core.categories.map .category)).Nodup := by
    rw [names_categories]
    exact core.categories_pairwise.imp ne_of_lt
  rw [find?_byName hnodup]
  split
  · rename_i hmem
    exact (find?_iff_of_nodup hnodup).mpr ⟨List.mem_map_of_mem hmem, rfl⟩
  · rename_i hnot
    rw [List.find?_eq_none]
    intro child hchild
    obtain ⟨category, hmem, rfl⟩ := List.mem_map.mp hchild
    simp only [decide_eq_true_eq]
    rintro rfl
    exact hnot hmem


/-! ### The directories of a torrent -/

theorem stripPrefix_eq_some {pre s r : List Char} : stripPrefix pre s = some r ↔ s = pre ++ r := by
  unfold stripPrefix
  constructor
  · intro h
    split at h
    · rename_i hpre
      obtain ⟨t, rfl⟩ := hpre
      rw [List.drop_left, Option.some.injEq] at h
      rw [h]
    · cases h
  · rintro rfl
    rw [if_pos (List.prefix_append _ _), List.drop_left]

theorem splitOn_injective {c : Char} {s t : List Char} (h : s.splitOn c = t.splitOn c) : s = t := by
  rw [← @List.intercalate_splitOn _ s _ _ c, h, List.intercalate_splitOn]

/-- The components of a file's display path. -/
def comps (torrent : TorrentView) (file : TorrentFileView) : List (List Char) :=
  (displayPath torrent file).splitOn '/'

/-- Components that a directory of the listing can have. -/
def Plain (cs : List (List Char)) : Prop := ∀ c ∈ cs, c ≠ [] ∧ '/' ∉ c

theorem relative_eq_some {cs : List (List Char)} (hcs : Plain cs) {display r : Path} :
    relative (Text.join '/' cs) display = some r ↔
      display.splitOn '/' = cs ++ r.splitOn '/' := by
  unfold relative
  by_cases hnil : cs = []
  · subst hnil
    rw [show Text.join '/' ([] : List (List Char)) = [] from rfl, if_pos rfl, Option.some.injEq,
      List.nil_append]
    exact ⟨fun h => by rw [h], fun h => splitOn_injective h⟩
  · have hjoin : Text.join '/' cs ≠ [] := fun e =>
      hnil ((Path.join_eq_nil fun c hc => (hcs c hc).1).mp e)
    have hsplit : (Text.join '/' cs ++ '/' :: r).splitOn '/' = cs ++ r.splitOn '/' := by
      rw [List.splitOn_append_cons_self, Text.splitOn_join (fun c hc => (hcs c hc).2) hnil]
    rw [if_neg hjoin, Option.bind_eq_some_iff, ← hsplit]
    constructor
    · rintro ⟨x, hx, hr⟩
      rw [stripPrefix_eq_some] at hx hr
      rw [hx, hr]
      rfl
    · intro h
      refine ⟨'/' :: r, ?_, stripPrefix_eq_some.mpr rfl⟩
      rw [stripPrefix_eq_some]
      exact splitOn_injective h

/-- What a directory with the components `cs` lists under a name, from the files alone. -/
def slot (torrent : TorrentView) (cs : List (List Char)) (files : List TorrentFileView)
    (name : List Char) : Option Node :=
  match files.reverse.find? fun file => comps torrent file = cs ++ [name] with
  | some file => some (.file torrent name file)
  | none =>
    if ∃ file ∈ files, cs ++ [name] <+: comps torrent file then
      some (.dir torrent name (Text.join '/' (cs ++ [name])))
    else none

section slot

variable {torrent : TorrentView} {cs : List (List Char)} {files : List TorrentFileView}
  {file : TorrentFileView} {name : List Char}

theorem slot_append_of_not (h : ¬cs ++ [name] <+: comps torrent file) :
    slot torrent cs (files ++ [file]) name = slot torrent cs files name := by
  have hne : comps torrent file ≠ cs ++ [name] := fun e => h (e ▸ List.prefix_rfl)
  unfold slot
  rw [List.reverse_append, List.reverse_singleton, List.singleton_append,
    List.find?_cons_of_neg (by simpa using hne)]
  have hiff : (∃ f ∈ files ++ [file], cs ++ [name] <+: comps torrent f) ↔
      ∃ f ∈ files, cs ++ [name] <+: comps torrent f := by
    constructor
    · rintro ⟨f, hf, hpre⟩
      rcases List.mem_append.mp hf with hf | hf
      · exact ⟨f, hf, hpre⟩
      · rw [List.mem_singleton] at hf
        exact absurd (hf ▸ hpre) h
    · rintro ⟨f, hf, hpre⟩
      exact ⟨f, List.mem_append_left _ hf, hpre⟩
  simp only [hiff]

theorem slot_append_file (h : comps torrent file = cs ++ [name]) :
    slot torrent cs (files ++ [file]) name = some (.file torrent name file) := by
  unfold slot
  rw [List.reverse_append, List.reverse_singleton, List.singleton_append,
    List.find?_cons_of_pos (by simpa using h)]

theorem slot_append_dir (hpre : cs ++ [name] <+: comps torrent file)
    (hne : comps torrent file ≠ cs ++ [name]) :
    slot torrent cs (files ++ [file]) name =
      some ((slot torrent cs files name).getD
        (.dir torrent name (Text.join '/' (cs ++ [name])))) := by
  unfold slot
  rw [List.reverse_append, List.reverse_singleton, List.singleton_append,
    List.find?_cons_of_neg (by simpa using hne)]
  cases files.reverse.find? fun file => comps torrent file = cs ++ [name] with
  | some f => rfl
  | none =>
    simp only
    rw [if_pos ⟨file, by simp, hpre⟩]
    split <;> rfl

end slot

theorem join_snoc (cs : List (List Char)) (name : List Char) :
    Text.join '/' (cs ++ [name]) =
      if cs = [] then name else Text.join '/' cs ++ '/' :: name := by
  by_cases h : cs = []
  · rw [if_pos h, h]
    simp [Text.join]
  · rw [if_neg h]
    induction cs with
    | nil => exact absurd rfl h
    | cons c cs ih =>
      cases cs with
      | nil => simp [Text.join, List.intercalate_cons_cons]
      | cons d cs =>
        have hrest := ih (by simp)
        unfold Text.join at hrest ⊢
        rw [List.cons_append, List.cons_append, List.intercalate_cons_cons, ← List.cons_append,
          hrest, List.intercalate_cons_cons]
        simp

theorem plain_comps (torrent : TorrentView) (file : TorrentFileView) :
    ∀ c ∈ comps torrent file, '/' ∉ c := fun _ hc => Text.notMem_of_mem_splitOn hc

theorem nodup_addChild (torrent : TorrentView) (path : Path) {children : List Node}
    (h : (names children).Nodup) (file : TorrentFileView) :
    (names (addChild torrent path children file)).Nodup := by
  unfold addChild
  cases relative path (displayPath torrent file) with
  | none => exact h
  | some r =>
    simp only
    generalize (r.splitOn '/').headD [] = first
    split
    · exact h
    · split
      · unfold names at h ⊢
        rw [List.map_append, List.nodup_append]
        refine ⟨h.sublist (List.filter_sublist.map _), by simp, ?_⟩
        rintro a ha b hb rfl
        obtain ⟨child, hchild, rfl⟩ := List.mem_map.mp ha
        have hne := (List.mem_filter.mp hchild).2
        simp only [List.map_cons, List.map_nil, List.mem_singleton] at hb
        simp only [decide_eq_true_eq] at hne
        exact hne hb
      · split
        · exact h
        · rename_i hany
          unfold names at h ⊢
          rw [List.map_append, List.nodup_append]
          refine ⟨h, by simp, ?_⟩
          rintro a ha b hb rfl
          obtain ⟨child, hchild, rfl⟩ := List.mem_map.mp ha
          simp only [List.map_cons, List.map_nil, List.mem_singleton] at hb
          exact hany (List.any_eq_true.mpr ⟨child, hchild, decide_eq_true hb⟩)

theorem nodup_children (torrent : TorrentView) (path : Path) (files : List TorrentFileView) :
    (names (files.foldl (addChild torrent path) [])).Nodup := by
  induction files using List.reverseRecOn with
  | nil => exact List.nodup_nil
  | append_singleton files file ih =>
    rw [List.foldl_append]
    exact nodup_addChild torrent path ih file

/-- What the loop of `read_dir` over the files of a torrent comes to under each name. -/
theorem find?_children (torrent : TorrentView) {cs : List (List Char)} (hcs : Plain cs)
    (files : List TorrentFileView) {name : List Char} (hname : name ≠ []) :
    ((files.foldl (addChild torrent (Text.join '/' cs)) []).find? fun child =>
      child.info.name = name) = slot torrent cs files name := by
  induction files using List.reverseRecOn with
  | nil => simp [slot]
  | append_singleton files file ih =>
    rw [List.foldl_append, List.foldl_cons, List.foldl_nil]
    generalize files.foldl (addChild torrent (Text.join '/' cs)) [] = children at ih ⊢
    have hrel := @relative_eq_some cs hcs (displayPath torrent file)
    unfold addChild
    cases hr : relative (Text.join '/' cs) (displayPath torrent file) with
    | none =>
      simp only
      rw [ih, slot_append_of_not]
      rintro ⟨rest, hrest⟩
      have hslash : ∀ c ∈ name :: rest, '/' ∉ c := fun c hc =>
        plain_comps torrent file c (hrest ▸ by simpa using Or.inr (List.mem_cons.mp hc))
      have hsome := (hrel (r := Text.join '/' (name :: rest))).mpr (by
        rw [Text.splitOn_join hslash (by simp)]
        simpa [comps] using hrest.symm)
      rw [hr] at hsome
      cases hsome
    | some r =>
      have hcomps : comps torrent file = cs ++ r.splitOn '/' := hrel.mp hr
      obtain ⟨first, rest, hsplit⟩ := List.exists_cons_of_ne_nil (List.splitOn_ne_nil '/' r)
      rw [hsplit] at hcomps
      have hstart : cs ++ [name] <+: comps torrent file ↔ name = first := by
        rw [hcomps, List.prefix_append_right_inj, List.cons_prefix_cons]
        simp
      simp only [hsplit, List.headD_cons]
      by_cases hempty : first = []
      · rw [if_pos hempty, ih, slot_append_of_not]
        rw [hstart, hempty]
        exact hname
      · rw [if_neg hempty]
        by_cases hfile : '/' ∉ r
        · have hrest : rest = [] := by
            rw [List.splitOn_eq_singleton hfile] at hsplit
            exact (List.cons.inj hsplit).2.symm
          rw [if_pos hfile, List.find?_append]
          rw [hrest] at hcomps
          by_cases he : name = first
          · subst he
            rw [slot_append_file hcomps]
            have hnone : ((children.filter fun child => child.info.name ≠ name).find? fun child =>
                child.info.name = name) = none := by
              rw [List.find?_eq_none]
              intro child hchild
              simpa using (List.mem_filter.mp hchild).2
            rw [hnone, Option.none_or]
            exact List.find?_cons_of_pos (by simp [Node.info])
          · rw [slot_append_of_not (by rw [hstart]; exact he), ← ih, List.find?_filter]
            have hlast : ([Node.file torrent first file].find? fun child =>
                child.info.name = name) = none :=
              List.find?_cons_of_neg fun e => he (of_decide_eq_true e).symm
            rw [hlast, Option.or_none]
            congr 1
            funext child
            by_cases hc : child.info.name = name
            · simp [hc, he]
            · simp [hc]
        · rw [if_neg hfile]
          have hdir : comps torrent file ≠ cs ++ [first] := by
            intro he
            rw [hcomps, List.append_cancel_left_eq, List.cons.injEq] at he
            have hone := hsplit
            rw [he.2] at hone
            have hr' := @List.intercalate_splitOn _ r _ _ '/'
            rw [hone, show ['/'].intercalate [first] = first by simp] at hr'
            have hfirst : '/' ∉ first := plain_comps torrent file first (by rw [hcomps]; simp)
            exact hfile (hr' ▸ hfirst)
          by_cases hany : (children.any fun child => child.info.name = first) = true
          · rw [if_pos hany, ih]
            by_cases he : name = first
            · subst he
              rw [slot_append_dir (hstart.mpr rfl) hdir, ← ih]
              obtain ⟨child, hchild, hc⟩ := List.any_eq_true.mp hany
              cases hf : children.find? fun child => child.info.name = name with
              | none => exact absurd hc (List.find?_eq_none.mp hf child hchild)
              | some x => rfl
            · rw [slot_append_of_not (by rw [hstart]; exact he)]
          · rw [if_neg hany, List.find?_append]
            by_cases he : name = first
            · subst he
              have hnone : (children.find? fun child => child.info.name = name) = none := by
                rw [List.find?_eq_none]
                intro child hchild hc
                exact hany (List.any_eq_true.mpr ⟨child, hchild, hc⟩)
              rw [slot_append_dir (hstart.mpr rfl) hdir, ← ih, hnone, Option.none_or,
                Option.getD_none, join_snoc]
              have hpath : (Text.join '/' cs = []) ↔ cs = [] :=
                Path.join_eq_nil fun c hc => (hcs c hc).1
              simp only [hpath]
              exact List.find?_cons_of_pos (by simp [Node.info, dirInfo])
            · rw [slot_append_of_not (by rw [hstart]; exact he), ← ih]
              have hlast : ([Node.dir torrent first (if Text.join '/' cs = [] then first
                  else Text.join '/' cs ++ '/' :: first)].find? fun child =>
                    child.info.name = name) = none :=
                List.find?_cons_of_neg fun e => he (of_decide_eq_true e).symm
              rw [hlast, Option.or_none]

theorem poll_gotInfo {hash : List Char} {n : ℕ} {t : TorrentView} (h : core.poll hash n = .ok t) :
    gotInfo t = true := by
  induction n with
  | zero => cases h
  | succ n ih =>
    unfold poll at h
    split at h
    · split at h
      · rename_i hgot
        cases h
        exact hgot
      · exact ih h
    · exact ih h

theorem loaded_gotInfo {u t : TorrentView} (h : core.loaded u = .ok t) : gotInfo t = true := by
  unfold loaded at h
  split at h
  · rename_i hgot
    cases h
    exact hgot
  · exact core.poll_gotInfo h

theorem loaded_of_gotInfo {t : TorrentView} (h : gotInfo t = true) : core.loaded t = .ok t := by
  rw [loaded, if_pos h]

theorem find?_dir (torrent : TorrentView) {cs : List (List Char)} (hcs : Plain cs)
    {name : List Char} (hname : name ≠ []) :
    ((byName (torrent.fileStats.foldl (addChild torrent (Text.join '/' cs)) [])).find? fun child =>
      child.info.name = name) = slot torrent cs torrent.fileStats name := by
  rw [find?_byName (nodup_children torrent _ _), find?_children torrent hcs _ hname]

/-- The file that a display path stands for: the last one listed with it. -/
def LastWith (torrent : TorrentView) (cs : List (List Char)) (file : TorrentFileView) : Prop :=
  (torrent.fileStats.reverse.find? fun f => comps torrent f = cs) = some file

theorem LastWith.comps_eq {torrent : TorrentView} {cs : List (List Char)}
    {file : TorrentFileView} (h : LastWith torrent cs file) :
    file ∈ torrent.fileStats ∧ comps torrent file = cs :=
  ⟨List.mem_reverse.mp (List.mem_of_find?_eq_some h), by simpa using List.find?_some h⟩

/-- From a directory of a loaded torrent the elements lead to a file at its components, unless
they meet another file on the way. -/
theorem walk_dir {torrent : TorrentView} (hgot : gotInfo torrent = true)
    {elements : List (List Char)} (helements : ∀ e ∈ elements, Element e)
    {cs : List (List Char)} (hcs : Plain cs) (here : List Char) {t : TorrentView}
    {n : List Char} {f : TorrentFileView} :
    core.walk (.dir torrent here (Text.join '/' cs)) elements = .ok (.file t n f) ↔
      t = torrent ∧ ∃ pre, pre ++ [n] <+: elements ∧ LastWith torrent (cs ++ (pre ++ [n])) f ∧
        ∀ q, q <+: pre → q ≠ [] → ∀ g ∈ torrent.fileStats, comps torrent g ≠ cs ++ q := by
  induction elements generalizing cs here with
  | nil =>
    constructor
    · intro h
      cases h
    · rintro ⟨-, pre, hpre, -⟩
      simp at hpre
  | cons e elements ih =>
    have he := helements e List.mem_cons_self
    have hread : core.readDir (.dir torrent here (Text.join '/' cs)) =
        .ok (byName (torrent.fileStats.foldl (addChild torrent (Text.join '/' cs)) [])) := by
      rw [readDir, core.loaded_of_gotInfo hgot]
    have hplain : Plain (cs ++ [e]) := by
      intro c hc
      rcases List.mem_append.mp hc with hc | hc
      · exact hcs c hc
      · rw [List.mem_singleton] at hc
        exact hc ▸ ⟨he.ne_nil, he.notMem⟩
    rw [walk, if_neg (by simp [Node.isFile]), hread]
    simp only
    rw [find?_dir torrent hcs he.ne_nil, slot]
    cases hlast : torrent.fileStats.reverse.find? fun f => comps torrent f = cs ++ [e] with
    | some g =>
      have hg : LastWith torrent (cs ++ [e]) g := hlast
      simp only
      rw [core.walk_file rfl, Except.ok.injEq, Node.file.injEq]
      constructor
      · rintro ⟨rfl, rfl, rfl⟩
        refine ⟨rfl, [], ?_, hg, fun q hq hne => absurd (List.prefix_nil.mp hq) hne⟩
        exact List.cons_prefix_cons.mpr ⟨rfl, List.nil_prefix⟩
      · rintro ⟨rfl, pre, hpre, hf, hclear⟩
        cases pre with
        | nil =>
          rw [List.nil_append, List.cons_prefix_cons] at hpre
          obtain ⟨rfl, -⟩ := hpre
          rw [List.nil_append] at hf
          exact ⟨rfl, rfl, Option.some.inj (hg.symm.trans hf)⟩
        | cons e' pre =>
          rw [List.cons_append, List.cons_prefix_cons] at hpre
          obtain ⟨rfl, -⟩ := hpre
          obtain ⟨hmem, hcomps⟩ := hg.comps_eq
          exact absurd hcomps (hclear [e'] (List.cons_prefix_cons.mpr ⟨rfl, List.nil_prefix⟩)
            (List.cons_ne_nil _ _) g hmem)
    | none =>
      have hnone : ∀ g ∈ torrent.fileStats, comps torrent g ≠ cs ++ [e] := fun g hg hc =>
        absurd (decide_eq_true hc) (List.find?_eq_none.mp hlast g (List.mem_reverse.mpr hg))
      -- a longer way to a file begins with `e`
      have hstep : (t = torrent ∧ ∃ pre, pre ++ [n] <+: e :: elements ∧
          LastWith torrent (cs ++ (pre ++ [n])) f ∧
          ∀ q, q <+: pre → q ≠ [] → ∀ g ∈ torrent.fileStats, comps torrent g ≠ cs ++ q) ↔
          t = torrent ∧ ∃ pre, pre ++ [n] <+: elements ∧
            LastWith torrent (cs ++ [e] ++ (pre ++ [n])) f ∧
            ∀ q, q <+: pre → q ≠ [] → ∀ g ∈ torrent.fileStats,
              comps torrent g ≠ cs ++ [e] ++ q := by
        refine and_congr_right fun _ => ?_
        constructor
        · rintro ⟨pre, hpre, hf, hclear⟩
          cases pre with
          | nil =>
            rw [List.nil_append, List.cons_prefix_cons] at hpre
            obtain ⟨rfl, -⟩ := hpre
            obtain ⟨hmem, hcomps⟩ := hf.comps_eq
            exact absurd hcomps (hnone f hmem)
          | cons e' pre =>
            rw [List.cons_append, List.cons_prefix_cons] at hpre
            obtain ⟨rfl, hpre⟩ := hpre
            refine ⟨pre, hpre, by simpa using hf, fun q hq hne g hg => ?_⟩
            have hclear' := hclear (e' :: q) (List.cons_prefix_cons.mpr ⟨rfl, hq⟩)
              (List.cons_ne_nil _ _) g hg
            simpa using hclear'
        · rintro ⟨pre, hpre, hf, hclear⟩
          refine ⟨e :: pre, List.cons_prefix_cons.mpr ⟨rfl, hpre⟩, by simpa using hf,
            fun q hq hne g hg => ?_⟩
          cases q with
          | nil => exact absurd rfl hne
          | cons e' q =>
            rw [List.cons_prefix_cons] at hq
            obtain ⟨rfl, hq⟩ := hq
            by_cases hqn : q = []
            · rw [hqn]
              exact hnone g hg
            · simpa using hclear q hq hqn g hg
      rw [hstep]
      simp only
      by_cases hdir : ∃ file ∈ torrent.fileStats, cs ++ [e] <+: comps torrent file
      · rw [if_pos hdir]
        exact ih (fun x hx => helements x (List.mem_cons_of_mem _ hx)) hplain e
      · rw [if_neg hdir]
        constructor
        · intro h
          cases h
        · rintro ⟨-, pre, -, hf, -⟩
          obtain ⟨hmem, hcomps⟩ := hf.comps_eq
          exact absurd ⟨f, hmem, hcomps ▸ List.prefix_append _ _⟩ hdir

/-! ### Addresses -/

/-- The torrent is the first of its name that its category lists. -/
def Listed (torrent : TorrentView) : Prop :=
  ((core.categoryDirs (categoryName torrent.category)).find? fun child =>
    child.info.name = torrentName torrent) = some (.dir torrent (torrentName torrent) [])

/-- The file stands for its display path and no other file's display path lies above it. -/
structure Shown (torrent : TorrentView) (file : TorrentFileView) : Prop where
  last : LastWith torrent (comps torrent file) file
  clear : ∀ g ∈ torrent.fileStats, comps torrent g <+: comps torrent file →
    comps torrent g = comps torrent file

/-- Category, torrent and display path, where `torrent` is the catalog's view of the torrent
and `view` the loaded one. -/
def address (torrent view : TorrentView) (file : TorrentFileView) : List (List Char) :=
  categoryName torrent.category :: torrentName torrent :: comps view file

theorem comps_ne_nil (torrent : TorrentView) (file : TorrentFileView) : comps torrent file ≠ [] :=
  List.splitOn_ne_nil _ _

/-- The shown files in terms of the elements that lead to them. -/
theorem shown_iff {torrent : TorrentView} {file : TorrentFileView} {pre : List (List Char)}
    {n : List Char} :
    (LastWith torrent (pre ++ [n]) file ∧
        ∀ q, q <+: pre → q ≠ [] → ∀ g ∈ torrent.fileStats, comps torrent g ≠ q) ↔
      comps torrent file = pre ++ [n] ∧ Shown torrent file := by
  constructor
  · rintro ⟨hlast, hclear⟩
    obtain ⟨-, hcomps⟩ := hlast.comps_eq
    refine ⟨hcomps, hcomps ▸ hlast, fun g hg hpre => ?_⟩
    rw [hcomps] at hpre ⊢
    rcases List.prefix_concat_iff.mp hpre with heq | hpre
    · exact heq
    · exact absurd rfl (hclear _ hpre (comps_ne_nil torrent g) g hg)
  · rintro ⟨hcomps, hlast, hclear⟩
    refine ⟨hcomps ▸ hlast, fun q hq hne g hg he => ?_⟩
    have hall := hclear g hg (by rw [he, hcomps]; exact hq.trans (List.prefix_append _ _))
    have hlen := hq.length_le
    rw [he, hcomps] at hall
    rw [hall, List.length_append, List.length_singleton] at hlen
    omega

theorem mem_categoryDirs {category : List Char} {child : Node}
    (h : child ∈ core.categoryDirs category) : ∃ torrent ∈ core.torrents,
      categoryName torrent.category = category ∧ child = .dir torrent (torrentName torrent) [] := by
  obtain ⟨torrent, hmem, rfl⟩ := List.mem_map.mp h
  obtain ⟨hmem, -⟩ := List.mem_filter.mp hmem
  obtain ⟨hmem, hcategory⟩ := List.mem_filter.mp hmem
  exact ⟨torrent, hmem, by simpa using hcategory, rfl⟩

/-- The paths that open a file are those whose parts begin with its address. -/
theorem walk_root {elements : List (List Char)} (helements : ∀ e ∈ elements, Element e)
    {t : TorrentView} {n : List Char} {f : TorrentFileView} :
    core.walk .root elements = .ok (.file t n f) ↔
      ∃ u, core.Listed u ∧ core.loaded u = .ok t ∧ Shown t f ∧
        (comps t f).getLast? = some n ∧ address u t f <+: elements := by
  cases elements with
  | nil => simp [walk, address]
  | cons category elements =>
    have hroot : core.walk .root (category :: elements) =
        if category ∈ core.categories then core.walk (.category category) elements
        else .error .notFound := by
      rw [walk, if_neg (by simp [Node.isFile])]
      simp only [readDir, core.find?_root]
      split
      · rename_i hnone
        split at hnone
        · cases hnone
        · rename_i hnot
          rw [if_neg hnot]
      · rename_i child hsome
        split at hsome
        · rename_i hmem
          cases hsome
          rw [if_pos hmem]
        · cases hsome
    rw [hroot]
    by_cases hin : category ∈ core.categories
    swap
    · rw [if_neg hin]
      constructor
      · intro h
        cases h
      · rintro ⟨u, hlisted, -, -, -, haddress⟩
        rw [address, List.cons_prefix_cons] at haddress
        obtain ⟨v, hv, hcategory, -⟩ := core.mem_categoryDirs (List.mem_of_find?_eq_some hlisted)
        exact absurd (core.mem_categories.mpr ⟨v, hv, hcategory.trans haddress.1⟩) hin
    rw [if_pos hin]
    cases elements with
    | nil => simp [walk, address]
    | cons name elements =>
      have helements' : ∀ e ∈ elements, Element e := fun e he =>
        helements e (List.mem_cons_of_mem _ (List.mem_cons_of_mem _ he))
      have hnames : ∀ u, (address u t f <+: category :: name :: elements ↔
          categoryName u.category = category ∧ torrentName u = name ∧ comps t f <+: elements) := by
        intro u
        rw [address, List.cons_prefix_cons, List.cons_prefix_cons]
      rw [walk, if_neg (by simp [Node.isFile])]
      simp only [readDir]
      cases hfind : (core.categoryDirs category).find? fun child => child.info.name = name with
      | none =>
        constructor
        · intro h
          simp at h
        · rintro ⟨u, hlisted, -, -, -, haddress⟩
          obtain ⟨rfl, rfl, -⟩ := (hnames u).mp haddress
          exact absurd (hlisted.symm.trans hfind) nofun
      | some child =>
        obtain ⟨u, hmem, hcategory, rfl⟩ :=
          core.mem_categoryDirs (List.mem_of_find?_eq_some hfind)
        have hname : torrentName u = name := by
          have hsame := List.find?_some hfind
          exact of_decide_eq_true hsame
        have hlisted : core.Listed u := by
          rw [Listed, hcategory, hname]
          exact hname ▸ hfind
        have honly : ∀ v, core.Listed v → address v t f <+: category :: name :: elements →
            v = u := by
          intro v hv haddress
          obtain ⟨hvc, hvn, -⟩ := (hnames v).mp haddress
          rw [Listed, hvc, hvn] at hv
          have hsame := hv.symm.trans hfind
          simp only [Option.some.injEq, Node.dir.injEq] at hsame
          exact hsame.1
        have hiff : (∃ v, core.Listed v ∧ core.loaded v = .ok t ∧ Shown t f ∧
            (comps t f).getLast? = some n ∧ address v t f <+: category :: name :: elements) ↔
            core.loaded u = .ok t ∧ Shown t f ∧ (comps t f).getLast? = some n ∧
              comps t f <+: elements := by
          constructor
          · rintro ⟨v, hv, hload, hshown, hlast, haddress⟩
            have hvu := honly v hv haddress
            subst hvu
            exact ⟨hload, hshown, hlast, ((hnames v).mp haddress).2.2⟩
          · rintro ⟨hload, hshown, hlast, hpre⟩
            exact ⟨u, hlisted, hload, hshown, hlast, (hnames u).mpr ⟨hcategory, hname, hpre⟩⟩
        rw [hiff]
        -- a torrent that does not load lists nothing, otherwise its loaded view is walked
        cases hload : core.loaded u with
        | error e =>
          constructor
          · intro h
            cases elements with
            | nil => cases h
            | cons e' elements =>
              simp only [walk, Node.isFile, Bool.false_eq_true, if_false, readDir, hload] at h
              cases h
          · rintro ⟨h, -⟩
            cases h
        | ok v =>
          have hgot := core.loaded_gotInfo hload
          have hsame : core.walk (.dir u (torrentName u) []) elements = .ok (.file t n f) ↔
              core.walk (.dir v (torrentName u) (Text.join '/' [])) elements =
                .ok (.file t n f) := by
            cases elements with
            | nil => simp [walk]
            | cons e elements =>
              have hread : core.readDir (.dir u (torrentName u) []) =
                  core.readDir (.dir v (torrentName u) (Text.join '/' [])) := by
                rw [readDir, readDir, hload, core.loaded_of_gotInfo hgot]
                rfl
              simp only [walk, Node.isFile, Bool.false_eq_true, if_false, hread]
          rw [hsame, core.walk_dir hgot helements' (show Plain [] from fun _ h => by cases h)]
          simp only [List.nil_append]
          constructor
          · rintro ⟨rfl, pre, hpre, hrest⟩
            obtain ⟨hcomps, hshown⟩ := shown_iff.mp hrest
            exact ⟨rfl, hshown, by rw [hcomps]; simp, hcomps ▸ hpre⟩
          · rintro ⟨hv, hshown, hlast, hpre⟩
            cases hv
            obtain ⟨pre, hcomps⟩ : ∃ pre, comps t f = pre ++ [n] := by
              obtain ⟨pre, hp⟩ := List.getLast?_eq_some_iff.mp hlast
              exact ⟨pre, hp⟩
            exact ⟨rfl, pre, hcomps ▸ hpre, shown_iff.mpr ⟨hcomps, hshown⟩⟩

/-- Directories other than categories list pairwise different names in order. -/
theorem readDir_sorted {node : Node} {children : List Node}
    (h : core.readDir node = .ok children) (hnode : ∀ category, node ≠ .category category) :
    (names children).Pairwise (· < ·) := by
  cases node with
  | root =>
    cases h
    apply names_byName
    rw [names_categories]
    exact core.categories_pairwise.imp ne_of_lt
  | category category => exact absurd rfl (hnode category)
  | dir torrent name path =>
    rw [readDir] at h
    split at h
    · cases h
    · cases h
      exact names_byName (nodup_children _ _ _)
  | file torrent name view => cases h

/-- Opening a directory's path extended by a listed name. -/
theorem openPath_extend {path : Path} {node : Node} (hpath : core.openPath path = .ok node)
    {children : List Node} (h : core.readDir node = .ok children) {child : Node}
    (hfirst : (children.find? fun c => c.info.name = child.info.name) = some child)
    (hname : Element child.info.name) :
    core.openPath (path ++ '/' :: child.info.name) = .ok child := by
  rw [openPath_eq] at hpath ⊢
  rw [Path.parts_extend path hname]
  by_cases hdots : ['.', '.'] ∈ Path.parts path
  · rw [if_pos hdots] at hpath
    cases hpath
  · rw [if_neg hdots] at hpath
    have hnot : ['.', '.'] ∉ Path.parts path ++ [child.info.name] := by
      intro hmem
      rcases List.mem_append.mp hmem with hmem | hmem
      · exact hdots hmem
      · exact hname.ne_dots (List.mem_singleton.mp hmem).symm
    have hfile : node.isFile = false := by
      cases node with
      | file torrent name view => cases h
      | root => rfl
      | category category => rfl
      | dir torrent name path => rfl
    rw [if_neg hnot, walk_append, hpath]
    simp only [walk, hfile, Bool.false_eq_true, if_false, h, hfirst]

theorem notMem_sanitizeName (name : List Char) : '/' ∉ sanitizeName name := by
  unfold sanitizeName
  simp only
  split
  · simp
  · intro hmem
    have hsub : '/' ∈ name.filterMap sanitizeChar :=
      (List.dropWhile_suffix _).subset (( List.rdropWhile_prefix _ _).subset hmem)
    obtain ⟨c, -, hc⟩ := List.mem_filterMap.mp hsub
    unfold sanitizeChar at hc
    split at hc
    · exact absurd (Option.some.inj hc) (by decide)
    · rename_i hslash
      split at hc
      · cases hc
      · exact hslash (Or.inl (Option.some.inj hc))

/-- A sanitised name is one a path can go through, or empty. -/
theorem element_sanitizeName {name : List Char} (h : sanitizeName name ≠ []) :
    Element (sanitizeName name) := by
  refine ⟨h, ?_, ?_, notMem_sanitizeName name⟩
  · intro he
    unfold sanitizeName at he h
    simp only at he h
    split at he
    · cases he
    · rename_i hnot
      exact hnot (Or.inr (Or.inl he))
  · intro he
    unfold sanitizeName at he h
    simp only at he h
    split at he
    · cases he
    · rename_i hnot
      exact hnot (Or.inr (Or.inr he))

theorem element_categoryName (category : List Char) : Element (categoryName category) := by
  unfold categoryName
  split
  · exact ⟨by decide, by decide, by decide, by decide⟩
  · rename_i h
    exact element_sanitizeName h

theorem element_torrentName {torrent : TorrentView} (h : sanitizeName torrent.title ≠ []) :
    Element (torrentName torrent) := by
  rw [torrentName, if_neg h]
  exact element_sanitizeName h

/-- The paths that open a file. -/
theorem openPath_eq_file {path : Path} {t : TorrentView} {n : List Char} {f : TorrentFileView} :
    core.openPath path = .ok (.file t n f) ↔
      ['.', '.'] ∉ Path.parts path ∧ ∃ u, core.Listed u ∧ core.loaded u = .ok t ∧ Shown t f ∧
        (comps t f).getLast? = some n ∧ address u t f <+: Path.parts path := by
  rw [openPath_eq]
  by_cases hdots : ['.', '.'] ∈ Path.parts path
  · rw [if_pos hdots]
    constructor
    · intro h
      cases h
    · intro h
      exact absurd hdots h.1
  · rw [if_neg hdots, core.walk_root fun e he => Path.element_of_mem_parts hdots he]
    exact ⟨fun h => ⟨hdots, h⟩, fun h => h.2⟩

/-- For an unchanging client core: what directories list, that a listed name leads to its
child, and which paths open a file. -/
theorem names_are_addresses (path : Path) :
    (∀ node children, core.openPath path = .ok node → core.readDir node = .ok children →
      ((∀ category, node ≠ .category category) → (names children).Pairwise (· < ·)) ∧
      ∀ child, (children.find? fun c => c.info.name = child.info.name) = some child →
        Element child.info.name → core.openPath (path ++ '/' :: child.info.name) = .ok child) ∧
    ∀ t n f, core.openPath path = .ok (.file t n f) ↔
      ['.', '.'] ∉ Path.parts path ∧ ∃ u, core.Listed u ∧ core.loaded u = .ok t ∧ Shown t f ∧
        (comps t f).getLast? = some n ∧ address u t f <+: Path.parts path :=
  ⟨fun _ _ hpath hread => ⟨core.readDir_sorted hread, fun _ hfirst hname =>
    core.openPath_extend hpath hread hfirst hname⟩, fun _ _ _ => core.openPath_eq_file⟩

/-! ### A catalog whose names clash -/

def clashingFile (id : ℕ) (path : String) : TorrentFileView := ⟨id, path.toList, 1, 0⟩

def clashingTorrent (title : String) (files : List TorrentFileView) : TorrentView where
  title := title.toList
  category := []
  timestamp := 0
  name := some "t".toList
  hash := none
  stat := 3
  fileStats := files

/-- A torrent with a file below another file, and two torrents of one title. -/
def clashing : Core where
  list := some [clashingTorrent "b" [clashingFile 1 "t/f", clashingFile 2 "t/f/g"],
    clashingTorrent "a" [clashingFile 1 "t/x"], clashingTorrent "a" [clashingFile 1 "t/y"]]
  settings := none
  added _ := none

/-- The category lists `b`, `a` and `a`; `a` opens the first of that name; the file `f` is
opened by two paths and the file `f/g` by none. -/
theorem clashing_names :
    clashing.openPath "other".toList = .ok (.category "other".toList) ∧
    (clashing.readDir (.category "other".toList)).map names =
      .ok ["b".toList, "a".toList, "a".toList] ∧
    clashing.openPath "other/a".toList =
      .ok (.dir (clashingTorrent "a" [clashingFile 1 "t/x"]) "a".toList []) ∧
    (∀ path ∈ ["other/b/f".toList, "other/b/f/h".toList], clashing.openPath path =
      .ok (.file (clashingTorrent "b" [clashingFile 1 "t/f", clashingFile 2 "t/f/g"]) "f".toList
        (clashingFile 1 "t/f"))) ∧
    ∀ path n, clashing.openPath path ≠
      .ok (.file (clashingTorrent "b" [clashingFile 1 "t/f", clashingFile 2 "t/f/g"]) n
        (clashingFile 2 "t/f/g")) := by
  refine ⟨by decide +kernel, by decide +kernel, by decide +kernel, by decide +kernel, ?_⟩
  intro path n hopen
  obtain ⟨-, u, -, -, hshown, -⟩ := clashing.openPath_eq_file.mp hopen
  have hclear := hshown.clear (clashingFile 1 "t/f") (by decide) (by decide +kernel)
  exact absurd hclear (by decide +kernel)

end Core

end Rustorr.Vfs
