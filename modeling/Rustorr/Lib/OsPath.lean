import Rustorr.Lib.Text
import Rustorr.Lib.Utf8

/-! Unix paths as bytes: how one is joined to another, and what components they name. -/

abbrev OsPath : Type := List UInt8

namespace OsPath

abbrev slash : UInt8 := 0x2f

abbrev dot : UInt8 := 0x2e

inductive Component
  | rootDir
  | curDir
  | parentDir
  | normal (name : List UInt8)
  deriving DecidableEq

/-- What stands between two slashes; nothing and a dot name no component. -/
def componentOf (part : List UInt8) : Option Component :=
  if part = [] ∨ part = [dot] then none
  else if part = [dot, dot] then some .parentDir
  else some (.normal part)

/-- How a path starts: at the root, at a dot that is kept, or at its first component. -/
def lead (path : OsPath) : List Component :=
  if path.head? = some slash then [.rootDir]
  else if (path.splitOn slash).head? = some [dot] then [.curDir]
  else []

def components (path : OsPath) : List Component :=
  lead path ++ (path.splitOn slash).filterMap componentOf

/-- An absolute path replaces the one it is joined to. -/
def join (path other : OsPath) : OsPath :=
  if other.head? = some slash then other
  else if path = [] ∨ path.getLast? = some slash then path ++ other
  else path ++ slash :: other

theorem lead_append {path rest : OsPath} (h : path ≠ [])
    (hsplit : ((path ++ rest).splitOn slash).head? = (path.splitOn slash).head?) :
    lead (path ++ rest) = lead path := by
  obtain ⟨b, path, rfl⟩ := List.exists_cons_of_ne_nil h
  unfold lead
  rw [hsplit]
  rfl

theorem head_splitOn_append (path rest : OsPath) :
    (path.splitOn slash ++ rest.splitOn slash).head? = (path.splitOn slash).head? := by
  obtain ⟨first, others, hsplit⟩ := List.exists_cons_of_ne_nil (List.splitOn_ne_nil slash path)
  rw [hsplit]
  rfl

/-- A path that starts at a component of its own goes below the one it is joined to. -/
theorem components_join {path other : OsPath} (hother : lead other = []) :
    components (join path other) = components path ++ components other := by
  have hrelative : other.head? ≠ some slash := by
    intro hroot
    unfold lead at hother
    rw [if_pos hroot] at hother
    cases hother
  unfold join
  rw [if_neg hrelative]
  rcases eq_or_ne path [] with rfl | hne
  · rw [if_pos (Or.inl rfl)]
    rfl
  by_cases hlast : path.getLast? = some slash
  · rw [if_pos (Or.inr hlast)]
    obtain ⟨front, rfl⟩ : ∃ front, path = front ++ [slash] :=
      ⟨path.dropLast, (List.dropLast_append_getLast? slash hlast).symm⟩
    have hsplit : (front ++ [slash] ++ other).splitOn slash =
        front.splitOn slash ++ other.splitOn slash := by
      rw [List.append_assoc, List.singleton_append, List.splitOn_append_cons_self]
    have hfront : (front ++ [slash]).splitOn slash = front.splitOn slash ++ [[]] := by
      rw [List.splitOn_append_cons_self, List.splitOn_nil]
    have hhead : ((front ++ [slash] ++ other).splitOn slash).head? =
        ((front ++ [slash]).splitOn slash).head? := by
      rw [hsplit, head_splitOn_append, hfront, ← List.splitOn_nil slash, head_splitOn_append]
    unfold components
    rw [lead_append hne hhead, hsplit, hfront, hother, List.filterMap_append, List.filterMap_append,
      List.nil_append, List.append_assoc, List.append_assoc]
    rfl
  · rw [if_neg (not_or.mpr ⟨hne, hlast⟩)]
    have hsplit : (path ++ slash :: other).splitOn slash =
        path.splitOn slash ++ other.splitOn slash := List.splitOn_append_cons_self path other
    have hhead : ((path ++ slash :: other).splitOn slash).head? = (path.splitOn slash).head? := by
      rw [hsplit, head_splitOn_append]
    unfold components
    rw [lead_append hne hhead, hsplit, hother, List.filterMap_append, List.nil_append,
      List.append_assoc]

/-- A name that stands between slashes and is neither of the dots. -/
structure Name (name : List UInt8) : Prop where
  ne_nil : name ≠ []
  ne_dot : name ≠ [dot]
  ne_dots : name ≠ [dot, dot]
  notMem : slash ∉ name

theorem componentOf_name {name : List UInt8} (h : Name name) :
    componentOf name = some (.normal name) := by
  unfold componentOf
  rw [if_neg (not_or.mpr ⟨h.ne_nil, h.ne_dot⟩), if_neg h.ne_dots]

theorem components_names {names : List (List UInt8)} (h : ∀ name ∈ names, Name name) :
    lead ([slash].intercalate names) = [] ∧
      components ([slash].intercalate names) = names.map .normal := by
  cases names with
  | nil => exact ⟨rfl, rfl⟩
  | cons name names =>
    have hname := h name List.mem_cons_self
    have hsplit := List.splitOn_intercalate slash (fun l hl => (h l hl).notMem)
      (List.cons_ne_nil name names)
    have hhead : ([slash].intercalate (name :: names)).head? = name.head? := by
      obtain ⟨b, rest, rfl⟩ := List.exists_cons_of_ne_nil hname.ne_nil
      cases names with
      | nil => rfl
      | cons next names => rfl
    have hlead : lead ([slash].intercalate (name :: names)) = [] := by
      unfold lead
      rw [hhead, if_neg fun hroot => hname.notMem (List.mem_of_head? hroot), hsplit, List.head?_cons,
        if_neg fun hdot => hname.ne_dot (Option.some.inj hdot)]
    refine ⟨hlead, ?_⟩
    unfold components
    rw [hlead, hsplit, List.nil_append, ← List.filterMap_eq_map]
    apply List.filterMap_congr
    intro part hpart
    exact componentOf_name (h part hpart)

/-! ### Texts as paths -/

theorem encode_join (names : List (List Char)) :
    Utf8.encode (Text.join '/' names) = [slash].intercalate (names.map Utf8.encode) := by
  unfold Text.join
  induction names with
  | nil => rfl
  | cons name names ih =>
    cases names with
    | nil =>
      rw [List.intercalate_singleton, List.map_cons, List.map_nil, List.intercalate_singleton]
    | cons next names =>
      rw [List.intercalate_cons_cons, List.append_assoc, Utf8.encode_append, Utf8.encode_append, ih,
        List.map_cons (l := next :: names), List.map_cons, List.intercalate_cons_cons,
        List.append_assoc]
      rfl

theorem name_encode {name : List Char} (hne : name ≠ []) (hdot : name ≠ ['.'])
    (hdots : name ≠ ['.', '.']) (hslash : '/' ∉ name) : Name (Utf8.encode name) := by
  constructor
  · exact Utf8.encode_ne_nil hne
  · exact fun h => hdot (Utf8.encode_injective h)
  · exact fun h => hdots (Utf8.encode_injective h)
  · exact fun h => hslash (Utf8.mem_encode_of_ascii (by decide) h)

end OsPath
