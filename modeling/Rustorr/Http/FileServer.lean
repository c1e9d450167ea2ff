import Rustorr.Lib.OsPath
import Rustorr.Vfs.Path

/-! Names served from a local directory (`file_server.rs`). -/

namespace Rustorr

/-! ### What `path.Clean` leaves -/

namespace Path

/-- The parts kept of a name, the last one first: dots that go up come before all others, and only
where the name is not rooted. -/
inductive Settled (rooted : Bool) : List (List Char) → Prop
  | nil : Settled rooted []
  | element {s : List Char} {kept : List (List Char)} : Element s → Settled rooted kept →
      Settled rooted (s :: kept)
  | up {kept : List (List Char)} : rooted = false → (∀ s ∈ kept, s = ['.', '.']) →
      Settled rooted kept → Settled rooted (['.', '.'] :: kept)

variable {rooted : Bool} {kept : List (List Char)}

theorem Settled.notMem (h : Settled rooted kept) : ∀ s ∈ kept, '/' ∉ s := by
  induction h with
  | nil => exact fun s hs => absurd hs List.not_mem_nil
  | element hs _ ih => exact List.forall_mem_cons.mpr ⟨hs.notMem, ih⟩
  | up _ _ _ ih => exact List.forall_mem_cons.mpr ⟨by decide, ih⟩

theorem Settled.ne_nil (h : Settled rooted kept) : ∀ s ∈ kept, s ≠ [] := by
  induction h with
  | nil => exact fun s hs => absurd hs List.not_mem_nil
  | element hs _ ih => exact List.forall_mem_cons.mpr ⟨hs.ne_nil, ih⟩
  | up _ _ _ ih => exact List.forall_mem_cons.mpr ⟨by decide, ih⟩

/-- Below the root nothing goes up. -/
theorem Settled.elements (h : Settled true kept) : ∀ s ∈ kept, Element s := by
  induction h with
  | nil => exact fun s hs => absurd hs List.not_mem_nil
  | element hs _ ih => exact List.forall_mem_cons.mpr ⟨hs, ih⟩
  | up hfalse => cases hfalse

/-- One more part leaves the kept ones settled. -/
theorem Settled.cleanStep (h : Settled rooted kept) {part : List Char} (hslash : '/' ∉ part) :
    Settled rooted (cleanStep rooted kept part) := by
  unfold Path.cleanStep
  split
  · exact h
  next hskip =>
    obtain ⟨hne, hdot⟩ := not_or.mp hskip
    split
    · next hup =>
      cases h with
      | nil =>
        simp only
        split
        · exact Settled.nil
        · next hrooted =>
          rw [hup]
          exact Settled.up (Bool.not_eq_true _ ▸ hrooted) (fun s hs => absurd hs List.not_mem_nil)
            Settled.nil
      | element hs hrest =>
        simp only
        rw [if_pos hs.ne_dots]
        exact hrest
      | up hfalse hall hrest =>
        simp only
        rw [if_neg (not_not.mpr rfl), hfalse, if_neg Bool.false_ne_true, hup]
        exact Settled.up rfl (List.forall_mem_cons.mpr ⟨rfl, hall⟩) (Settled.up rfl hall (hfalse ▸ hrest))
    · next hdots => exact Settled.element ⟨hne, hdot, hdots, hslash⟩ h

theorem Settled.foldl {parts : List (List Char)} (hparts : ∀ s ∈ parts, '/' ∉ s)
    (h : Settled rooted kept) : Settled rooted (parts.foldl (Path.cleanStep rooted) kept) := by
  induction parts generalizing kept with
  | nil => exact h
  | cons part parts ih =>
    obtain ⟨hpart, hrest⟩ := List.forall_mem_cons.mp hparts
    exact ih hrest (h.cleanStep hpart)

/-- What is settled is kept as it is. -/
theorem Settled.foldl_reverse (h : Settled rooted kept) :
    kept.reverse.foldl (Path.cleanStep rooted) [] = kept := by
  induction h with
  | nil => rfl
  | element hs _ ih =>
    rw [List.reverse_cons, List.foldl_append, ih]
    exact cleanStep_of_element hs rooted _
  | @up kept hfalse hall _ ih =>
    rw [List.reverse_cons, List.foldl_append, ih, List.foldl_cons, List.foldl_nil]
    unfold Path.cleanStep
    rw [if_neg (by decide), if_pos rfl]
    cases kept with
    | nil => rw [hfalse]; rfl
    | cons last rest =>
      simp only
      rw [if_neg (not_not.mpr (hall last List.mem_cons_self)), hfalse, if_neg Bool.false_ne_true]

theorem settled_parts (path : Path) :
    Settled (path.head? == some '/')
      ((path.splitOn '/').foldl (Path.cleanStep (path.head? == some '/')) []) :=
  Settled.foldl (fun _ hs => Text.notMem_of_mem_splitOn hs) Settled.nil

/-- Cleaning the settled parts of a name, joined again, gives them back. -/
theorem foldl_join (h : Settled rooted kept) :
    ((Text.join '/' kept.reverse).splitOn '/').foldl (Path.cleanStep rooted) [] = kept := by
  rcases eq_or_ne kept [] with rfl | hne
  · rfl
  · have hslash : ∀ s ∈ kept.reverse, '/' ∉ s := fun s hs => h.notMem s (List.mem_reverse.mp hs)
    rw [Text.splitOn_join hslash (mt List.reverse_eq_nil_iff.mp hne), h.foldl_reverse]

theorem splitOn_slash (path : Path) : ('/' :: path).splitOn '/' = [] :: path.splitOn '/' := by
  rw [List.splitOn_cons_eq_if_modifyHead, if_pos (beq_self_eq_true '/')]

theorem clean_rooted (path : Path) :
    clean ('/' :: path) =
      '/' :: Text.join '/' ((path.splitOn '/').foldl (Path.cleanStep true) []).reverse := by
  unfold clean
  rw [splitOn_slash]
  rfl

/-- Joined parts start at no slash. -/
theorem head_join {parts : List (List Char)} (h : ∀ s ∈ parts, s ≠ [] ∧ '/' ∉ s) :
    (Text.join '/' parts).head? ≠ some '/' := by
  cases parts with
  | nil => exact Option.some_ne_none '/' ∘ Eq.symm
  | cons part parts =>
    obtain ⟨hne, hslash⟩ := h part List.mem_cons_self
    rw [join_head hne]
    exact fun hhead => hslash (List.mem_of_head? hhead)

theorem clean_clean (path : Path) : clean (clean path) = clean path := by
  have hsettled := settled_parts path
  by_cases hrooted : (path.head? == some '/') = true
  · obtain ⟨rest, rfl⟩ : ∃ rest, path = '/' :: rest := by
      cases path with
      | nil => cases hrooted
      | cons c rest => exact ⟨rest, by rw [Option.some.inj (eq_of_beq hrooted)]⟩
    have hrest : Settled true ((rest.splitOn '/').foldl (Path.cleanStep true) []) :=
      Settled.foldl (fun _ hs => Text.notMem_of_mem_splitOn hs) Settled.nil
    rw [clean_rooted, clean_rooted, foldl_join hrest]
  · rw [Bool.not_eq_true] at hrooted
    rw [hrooted] at hsettled
    generalize hkept : (path.splitOn '/').foldl (Path.cleanStep false) [] = kept at hsettled
    have hclean : clean path =
        if Text.join '/' kept.reverse = [] then ['.'] else Text.join '/' kept.reverse := by
      unfold clean
      simp only
      rw [hrooted, hkept, if_neg Bool.false_ne_true]
    by_cases hempty : Text.join '/' kept.reverse = []
    · rw [hclean, if_pos hempty]
      rfl
    · have hhead : ((Text.join '/' kept.reverse).head? == some '/') = false := by
        apply beq_eq_false_iff_ne.mpr
        apply head_join
        intro s hs
        have hs := List.mem_reverse.mp hs
        exact ⟨hsettled.ne_nil s hs, hsettled.notMem s hs⟩
      rw [hclean, if_neg hempty]
      unfold clean
      simp only
      rw [hhead, foldl_join hsettled, if_neg Bool.false_ne_true, if_neg hempty]

end Path

/-! ### The file server -/

namespace FileServer

open Rustorr.Path

/-- One component of a name taken into those kept so far, last kept first. -/
def cleanStep (parts : List (List Char)) (part : List Char) : List (List Char) :=
  if part = [] ∨ part = ['.'] then parts
  else if part = ['.', '.'] then parts.tail
  else part :: parts

/-- Go's `path.Clean` for rooted paths. -/
def clean (path : Path) : Path :=
  '/' :: Text.join '/' ((path.splitOn '/').foldl cleanStep []).reverse

/-- `local`: the cleaned path below `root`. -/
def localPath (root : OsPath) (path : Path) : OsPath :=
  OsPath.join root (Utf8.encode ((clean ('/' :: path)).dropWhile (· = '/')))

/-- Where nothing that is kept goes up, the two cleaners do the same. -/
theorem cleanStep_eq {kept : List (List Char)} (h : Settled true kept) (part : List Char) :
    cleanStep kept part = Path.cleanStep true kept part := by
  unfold cleanStep Path.cleanStep
  split
  · rfl
  split
  · cases h with
    | nil => rfl
    | element hs _ => exact (if_pos hs.ne_dots).symm
    | up hfalse => cases hfalse
  · rfl

theorem foldl_cleanStep {kept parts : List (List Char)} (hparts : ∀ s ∈ parts, '/' ∉ s)
    (h : Settled true kept) : parts.foldl cleanStep kept = parts.foldl (Path.cleanStep true) kept := by
  induction parts generalizing kept with
  | nil => rfl
  | cons part parts ih =>
    obtain ⟨hpart, hrest⟩ := List.forall_mem_cons.mp hparts
    rw [List.foldl_cons, List.foldl_cons, cleanStep_eq h]
    exact ih hrest (h.cleanStep hpart)

/-- The server cleans any name as the other cleaner does below the root. -/
theorem clean_eq (path : Path) : clean path = Path.clean ('/' :: path) := by
  unfold clean
  rw [clean_rooted, foldl_cleanStep (fun _ hs => Text.notMem_of_mem_splitOn hs) Settled.nil]

theorem clean_slash (path : Path) : clean ('/' :: path) = clean path := by
  unfold clean
  rw [splitOn_slash]
  rfl

/-- On rooted names the two cleaners agree. -/
theorem clean_of_rooted {path : Path} (h : Rooted path) : clean path = Path.clean path := by
  obtain ⟨rest, rfl⟩ : ∃ rest, path = '/' :: rest := by
    cases path with
    | nil => cases h
    | cons c rest => exact ⟨rest, by rw [Option.some.inj h]⟩
  rw [clean_slash, clean_eq]

theorem clean_clean (path : Path) : clean (clean path) = clean path := by
  have hrooted : Rooted (clean path) := rfl
  rw [clean_of_rooted hrooted, clean_eq, Path.clean_clean]

/-- The root, or parts after the leading slash that are neither empty nor dots. -/
def Plain (path : Path) : Prop :=
  ∃ below, path = '/' :: below ∧ (below = [] ∨ ∀ s ∈ below.splitOn '/', Element s)

/-- What is cleaned is a slash and then plain names. -/
theorem exists_names (path : Path) : ∃ names : List (List Char), (∀ s ∈ names, Element s) ∧
    clean path = '/' :: Text.join '/' names := by
  have hsettled : Settled true ((path.splitOn '/').foldl (Path.cleanStep true) []) :=
    Settled.foldl (fun _ hs => Text.notMem_of_mem_splitOn hs) Settled.nil
  refine ⟨((path.splitOn '/').foldl (Path.cleanStep true) []).reverse, fun s hs => ?_, ?_⟩
  · exact hsettled.elements s (List.mem_reverse.mp hs)
  · rw [clean_eq, clean_rooted]

theorem plain_clean (path : Path) : Plain (clean path) := by
  obtain ⟨names, hnames, hclean⟩ := exists_names path
  refine ⟨Text.join '/' names, hclean, ?_⟩
  rcases eq_or_ne names [] with rfl | hne
  · exact Or.inl rfl
  · right
    rw [Text.splitOn_join (fun s hs => (hnames s hs).notMem) hne]
    exact hnames

/-- `trim_start_matches('/')` of a name with one slash in front. -/
theorem dropWhile_slash {rest : List Char} (h : rest.head? ≠ some '/') :
    ('/' :: rest).dropWhile (· = '/') = rest := by
  rw [List.dropWhile_cons, if_pos (decide_eq_true rfl)]
  cases rest with
  | nil => rfl
  | cons c rest =>
    rw [List.dropWhile_cons, if_neg]
    rw [decide_eq_true_eq]
    rintro rfl
    exact h rfl

/-- The components of the root come first, and plain names follow. -/
theorem components_localPath (root : OsPath) (path : Path) :
    ∃ names : List (List Char), (∀ s ∈ names, Element s) ∧ (localPath root path).components =
      root.components ++ names.map fun s => OsPath.Component.normal (Utf8.encode s) := by
  obtain ⟨names, hnames, hclean⟩ := exists_names ('/' :: path)
  have hhead := head_join fun s hs => ⟨(hnames s hs).ne_nil, (hnames s hs).notMem⟩
  have hbytes : ∀ b ∈ names.map Utf8.encode, OsPath.Name b := by
    intro b hb
    obtain ⟨s, hs, rfl⟩ := List.mem_map.mp hb
    have hs := hnames s hs
    exact OsPath.name_encode hs.ne_nil hs.ne_dot hs.ne_dots hs.notMem
  obtain ⟨hlead, hcomponents⟩ := OsPath.components_names hbytes
  refine ⟨names, hnames, ?_⟩
  unfold localPath
  rw [hclean, dropWhile_slash hhead, OsPath.encode_join,
    OsPath.components_join hlead, hcomponents, List.map_map]
  rfl

/-- A served name stays under the root, and the two cleaners agree, settle and leave plain names. -/
theorem static_paths_stay_inside (root : OsPath) (path : Path) :
    (∃ names : List (List Char), (∀ s ∈ names, Element s) ∧ (localPath root path).components =
      root.components ++ names.map fun s => OsPath.Component.normal (Utf8.encode s)) ∧
    (Rooted path → clean path = Path.clean path) ∧
    (clean (clean path) = clean path ∧ Plain (clean path)) ∧
    Path.clean (Path.clean path) = Path.clean path ∧ (Rooted path → Plain (Path.clean path)) := by
  refine ⟨components_localPath root path, clean_of_rooted, ⟨clean_clean path, plain_clean path⟩,
    Path.clean_clean path, fun h => ?_⟩
  rw [← clean_of_rooted h]
  exact plain_clean path

end FileServer

end Rustorr
