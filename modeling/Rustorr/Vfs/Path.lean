import Rustorr.Lib.Replace

/-! Slash-separated names of the file system. -/

namespace Rustorr

/-- A name given to the file system or to the lock table. -/
abbrev Path : Type := List Char

namespace Path

/-- One component of a name taken into those kept so far, last kept first. -/
def cleanStep (rooted : Bool) (parts : List (List Char)) (part : List Char) : List (List Char) :=
  if part = [] ∨ part = ['.'] then parts
  else if part = ['.', '.'] then
    match parts with
    | last :: rest =>
      if last ≠ ['.', '.'] then rest else if rooted then parts else part :: parts
    | [] => if rooted then [] else [part]
  else part :: parts

/-- Go's `path.Clean`. -/
def clean (path : Path) : Path :=
  let rooted := path.head? == some '/'
  let parts := ((path.splitOn '/').foldl (cleanStep rooted) []).reverse
  let joined := Text.join '/' parts
  if rooted then '/' :: joined else if joined = [] then ['.'] else joined

/-- The parts `clean` keeps, in order. -/
def parts (path : Path) : List (List Char) :=
  ((path.splitOn '/').foldl (cleanStep (path.head? == some '/')) []).reverse

def slashClean (name : Path) : Path :=
  if name.head? = some '/' then clean name else clean ('/' :: name)

/-- A name that starts at the root. -/
def Rooted (p : Path) : Prop := p.head? = some '/'

instance : DecidablePred Rooted := fun p => inferInstanceAs (Decidable (p.head? = some '/'))

/-- `q` is `p` or lies below it. -/
def Covers (p q : Path) : Prop := q = p ∨ p = ['/'] ∨ p ≠ [] ∧ p ++ ['/'] <+: q

instance (p q : Path) : Decidable (Covers p q) :=
  inferInstanceAs (Decidable (q = p ∨ p = ['/'] ∨ p ≠ [] ∧ p ++ ['/'] <+: q))

/-- What is before the last slash; nothing where there is none. -/
def untilLastSlash (name : Path) : Path := ((name.reverse.dropWhile (· ≠ '/')).drop 1).reverse

/-- The next name on the way to the root. -/
def parent (name : Path) : Path :=
  if untilLastSlash name = [] then ['/'] else untilLastSlash name

/-- The names `walk_to_root` visits in at most `n` further steps. -/
def upwards : ℕ → Path → List Path
  | 0, name => [name]
  | n + 1, name => if name = ['/'] then [name] else name :: upwards n (parent name)

/-- The names `walk_to_root` visits, the given one first. -/
def toRoot (name : Path) : List Path := upwards (name.length + 1) name

theorem rooted_clean {path : Path} (h : Rooted path) : Rooted (clean path) := by
  unfold Rooted at h
  simp [clean, Rooted, h]

theorem rooted_slashClean (name : Path) : Rooted (slashClean name) := by
  unfold slashClean
  split
  · rename_i h
    exact rooted_clean h
  · exact rooted_clean rfl

theorem Rooted.ne_nil {p : Path} (h : Rooted p) : p ≠ [] := fun e => by simp [Rooted, e] at h

theorem untilLastSlash_append (a : Path) {b : Path} (hb : '/' ∉ b) :
    untilLastSlash (a ++ '/' :: b) = a := by
  have hdrop : (a ++ '/' :: b).reverse.dropWhile (· ≠ '/') = '/' :: a.reverse := by
    rw [List.reverse_append, List.reverse_cons, List.append_assoc,
      List.dropWhile_append_of_pos fun c hc => ?_]
    · simp
    · have : c ∈ b := List.mem_reverse.mp hc
      simpa using fun e : c = '/' => hb (e ▸ this)
  rw [untilLastSlash, hdrop]
  simp

/-- The last slash cuts a name in two. -/
theorem exists_lastSlash {p : Path} (h : '/' ∈ p) : ∃ a b, p = a ++ '/' :: b ∧ '/' ∉ b := by
  induction p with
  | nil => simp at h
  | cons c p ih =>
    by_cases hp : '/' ∈ p
    · obtain ⟨a, b, rfl, hb⟩ := ih hp
      exact ⟨c :: a, b, rfl, hb⟩
    · have hc : c = '/' := ((List.mem_cons.mp h).resolve_right hp).symm
      exact ⟨[], p, by rw [hc]; rfl, hp⟩

theorem Rooted.slash_mem {p : Path} (h : Rooted p) : '/' ∈ p := List.mem_of_head? h

/-- A rooted name other than the root is its parent and one more part. -/
theorem Rooted.parent_cases {p : Path} (h : Rooted p) (hp : p ≠ ['/']) :
    (∃ b, p = '/' :: b ∧ '/' ∉ b ∧ b ≠ [] ∧ parent p = ['/']) ∨
      ∃ b, p = parent p ++ '/' :: b ∧ '/' ∉ b ∧ Rooted (parent p) := by
  obtain ⟨a, b, rfl, hb⟩ := exists_lastSlash h.slash_mem
  have hcut := untilLastSlash_append a hb
  by_cases ha : a = []
  · left
    subst ha
    refine ⟨b, rfl, hb, fun e => hp (by rw [e]; rfl), ?_⟩
    rw [parent, hcut, if_pos rfl]
  · right
    have hpar : parent (a ++ '/' :: b) = a := by rw [parent, hcut, if_neg ha]
    refine ⟨b, by rw [hpar], hb, ?_⟩
    rw [hpar]
    cases a with
    | nil => exact absurd rfl ha
    | cons c a => exact h

theorem Rooted.parent {p : Path} (h : Rooted p) (hp : p ≠ ['/']) : Rooted p.parent := by
  rcases h.parent_cases hp with ⟨b, -, -, -, hr⟩ | ⟨b, -, -, hr⟩
  · rw [hr]
    rfl
  · exact hr

theorem Rooted.length_parent {p : Path} (h : Rooted p) (hp : p ≠ ['/']) :
    p.parent.length < p.length := by
  rcases h.parent_cases hp with ⟨b, rfl, -, hb, hr⟩ | ⟨b, hb, -, -⟩
  · rw [hr]
    have := List.length_pos_of_ne_nil hb
    simpa using this
  · have := congrArg List.length hb
    rw [List.length_append, List.length_cons] at this
    omega

/-- More steps than the name is long reach the root. -/
theorem upwards_eq {p : Path} (h : Rooted p) {m n : ℕ} (hm : p.length ≤ m) (hn : p.length ≤ n) :
    upwards m p = upwards n p := by
  induction m generalizing p n with
  | zero => exact absurd (List.length_eq_zero_iff.mp (by omega)) h.ne_nil
  | succ m ih =>
    cases n with
    | zero => exact absurd (List.length_eq_zero_iff.mp (by omega)) h.ne_nil
    | succ n =>
      unfold upwards
      by_cases hp : p = ['/']
      · rw [if_pos hp, if_pos hp]
      · have := h.length_parent hp
        rw [if_neg hp, if_neg hp, ih (h.parent hp) (n := n) (by omega) (by omega)]

theorem toRoot_root : toRoot ['/'] = [['/']] := rfl

theorem toRoot_cons {p : Path} (h : Rooted p) (hp : p ≠ ['/']) :
    toRoot p = p :: toRoot p.parent := by
  have := h.length_parent hp
  rw [toRoot, upwards, if_neg hp, toRoot,
    upwards_eq (h.parent hp) (n := p.parent.length + 1) (by omega) (by omega)]

/-- Induction along the way to the root. -/
theorem Rooted.induction {motive : (p : Path) → Rooted p → Prop} (root : motive ['/'] rfl)
    (step : ∀ p (h : Rooted p) (hp : p ≠ ['/']), motive p.parent (h.parent hp) → motive p h)
    {p : Path} (h : Rooted p) : motive p h := by
  induction hn : p.length using Nat.strong_induction_on generalizing p with
  | _ n ih =>
    by_cases hp : p = ['/']
    · subst hp
      exact root
    · exact step p h hp (ih _ (hn ▸ h.length_parent hp) (h.parent hp) rfl)

theorem self_mem_toRoot {p : Path} (h : Rooted p) : p ∈ toRoot p := by
  by_cases hp : p = ['/']
  · simp [hp, toRoot_root]
  · rw [toRoot_cons h hp]
    exact List.mem_cons_self ..

theorem head_toRoot {p : Path} (h : Rooted p) : ∃ rest, toRoot p = p :: rest := by
  by_cases hp : p = ['/']
  · exact ⟨[], by rw [hp, toRoot_root]⟩
  · exact ⟨_, toRoot_cons h hp⟩

theorem length_le_of_mem_toRoot {p q : Path} (h : Rooted q) (hp : p ∈ toRoot q) :
    p.length ≤ q.length := by
  induction h using Rooted.induction with
  | root => simp [List.mem_singleton.mp (toRoot_root ▸ hp)]
  | step q hr hq ih =>
    rw [toRoot_cons hr hq] at hp
    rcases List.mem_cons.mp hp with rfl | hp
    · exact le_rfl
    · exact (ih hp).trans (hr.length_parent hq).le

theorem nodup_toRoot {p : Path} (h : Rooted p) : (toRoot p).Nodup := by
  induction h using Rooted.induction with
  | root => simp [toRoot_root]
  | step p hr hp ih =>
    rw [toRoot_cons hr hp]
    refine List.nodup_cons.mpr ⟨fun hmem => ?_, ih⟩
    have := length_le_of_mem_toRoot (hr.parent hp) hmem
    have := hr.length_parent hp
    omega

theorem rooted_of_mem_toRoot {p q : Path} (h : Rooted q) (hp : p ∈ toRoot q) : Rooted p := by
  induction h using Rooted.induction with
  | root =>
    rw [toRoot_root, List.mem_singleton] at hp
    rw [hp]
    rfl
  | step q hr hq ih =>
    rw [toRoot_cons hr hq] at hp
    rcases List.mem_cons.mp hp with rfl | hp
    · exact hr
    · exact ih hp

/-- The way to the root from a name is the end of the way from any name below it. -/
theorem mem_toRoot_trans {p q r : Path} (hr : Rooted r) (hp : p ∈ toRoot q) (hq : q ∈ toRoot r) :
    p ∈ toRoot r := by
  induction hr using Rooted.induction with
  | root =>
    rw [toRoot_root, List.mem_singleton] at hq
    rwa [hq] at hp
  | step r hr hne ih =>
    rw [toRoot_cons hr hne] at hq ⊢
    rcases List.mem_cons.mp hq with rfl | hq
    · rwa [← toRoot_cons hr hne]
    · exact List.mem_cons_of_mem _ (ih hq)

theorem root_mem_toRoot {p : Path} (h : Rooted p) : ['/'] ∈ toRoot p := by
  induction h using Rooted.induction with
  | root => simp [toRoot_root]
  | step p hr hp ih =>
    rw [toRoot_cons hr hp]
    exact List.mem_cons_of_mem _ ih

/-- The walk to the root visits exactly the names that cover its start. -/
theorem mem_toRoot_iff {p q : Path} (h : Rooted q) : p ∈ toRoot q ↔ Covers p q := by
  induction h using Rooted.induction with
  | root =>
    rw [toRoot_root, List.mem_singleton]
    refine ⟨fun e => Or.inl e.symm, ?_⟩
    rintro (e | e | ⟨hp, e⟩)
    · exact e.symm
    · exact e
    · have := e.length_le
      have := List.length_pos_of_ne_nil hp
      simp only [List.length_append, List.length_cons, List.length_nil] at *
      omega
  | step q hr hq ih =>
    rw [toRoot_cons hr hq, List.mem_cons, ih]
    constructor
    · rintro (rfl | rfl | rfl | ⟨hp, hpre⟩)
      · exact Or.inl rfl
      · rcases hr.parent_cases hq with ⟨b, -, -, -, hroot⟩ | ⟨b, hb, -, hpar⟩
        · exact Or.inr (Or.inl hroot)
        · refine Or.inr (Or.inr ⟨hpar.ne_nil, b, ?_⟩)
          rw [List.append_assoc]
          exact hb.symm
      · exact Or.inr (Or.inl rfl)
      · refine Or.inr (Or.inr ⟨hp, hpre.trans ?_⟩)
        rcases hr.parent_cases hq with ⟨b, hb, -, -, hroot⟩ | ⟨b, hb, -, -⟩
        · rw [hroot, hb]
          exact ⟨b, rfl⟩
        · exact ⟨_, hb.symm⟩
    · rintro (rfl | rfl | ⟨hp, hpre⟩)
      · exact Or.inl rfl
      · exact Or.inr (Or.inr (Or.inl rfl))
      · right
        obtain ⟨s, hs⟩ := hpre
        rw [List.append_assoc] at hs
        by_cases hslash : '/' ∈ s
        · obtain ⟨a, b, rfl, hb⟩ := exists_lastSlash hslash
          have hcut : parent q = p ++ '/' :: a := by
            have hq' : q = (p ++ '/' :: a) ++ '/' :: b := by rw [← hs]; simp
            rw [parent, hq', untilLastSlash_append _ hb, if_neg (by simp)]
          exact Or.inr (Or.inr ⟨hp, a, by rw [hcut]; simp⟩)
        · have hcut : parent q = p := by
            have hq' : q = p ++ '/' :: s := hs.symm
            rw [parent, hq', untilLastSlash_append _ hslash, if_neg hp]
          exact Or.inl hcut

/-! ### Parts -/

/-- A name that stands between slashes and is left as it is. -/
structure Element (s : List Char) : Prop where
  ne_nil : s ≠ []
  ne_dot : s ≠ ['.']
  ne_dots : s ≠ ['.', '.']
  notMem : '/' ∉ s

theorem clean_eq (path : Path) : clean path =
    if path.head? == some '/' then '/' :: Text.join '/' (parts path)
    else if Text.join '/' (parts path) = [] then ['.'] else Text.join '/' (parts path) := rfl

theorem cleanStep_of_element {s : List Char} (h : Element s) (rooted : Bool)
    (kept : List (List Char)) : cleanStep rooted kept s = s :: kept := by
  unfold cleanStep
  rw [if_neg (by simp [h.ne_nil, h.ne_dot]), if_neg h.ne_dots]

/-- What is kept of a name is its parts but for empty ones and dots. -/
theorem mem_cleanStep {rooted : Bool} {kept : List (List Char)} {part s : List Char}
    (h : s ∈ cleanStep rooted kept part) :
    s ∈ kept ∨ s = part ∧ part ≠ [] ∧ part ≠ ['.'] ∧ (rooted = true → part ≠ ['.', '.']) := by
  unfold cleanStep at h
  split at h
  · exact Or.inl h
  · rename_i hplain
    have hne : part ≠ [] ∧ part ≠ ['.'] := not_or.mp hplain
    split at h
    · split at h
      · rename_i last rest
        split at h
        · exact Or.inl (List.mem_cons_of_mem _ h)
        · split at h
          · exact Or.inl h
          · rename_i hroot
            rcases List.mem_cons.mp h with rfl | h
            · exact Or.inr ⟨rfl, hne.1, hne.2, fun hr => absurd hr hroot⟩
            · exact Or.inl h
      · split at h
        · cases h
        · rename_i hroot
          rw [List.mem_singleton] at h
          exact Or.inr ⟨h, hne.1, hne.2, fun hr => absurd hr hroot⟩
    · rename_i hdots
      rcases List.mem_cons.mp h with rfl | h
      · exact Or.inr ⟨rfl, hne.1, hne.2, fun _ => hdots⟩
      · exact Or.inl h

theorem mem_parts {path : Path} {s : List Char} (h : s ∈ parts path) :
    s ≠ [] ∧ s ≠ ['.'] ∧ '/' ∉ s ∧ (Rooted path → s ≠ ['.', '.']) := by
  have hfold : ∀ (l : List (List Char)) (kept : List (List Char)), (∀ t ∈ l, '/' ∉ t) →
      (∀ s ∈ kept, s ≠ [] ∧ s ≠ ['.'] ∧ '/' ∉ s ∧ (Rooted path → s ≠ ['.', '.'])) →
      ∀ s ∈ l.foldl (cleanStep (path.head? == some '/')) kept,
        s ≠ [] ∧ s ≠ ['.'] ∧ '/' ∉ s ∧ (Rooted path → s ≠ ['.', '.']) := by
    intro l
    induction l with
    | nil => exact fun _ _ hkept => hkept
    | cons part l ih =>
      intro kept hl hkept
      refine ih _ (fun t ht => hl t (List.mem_cons_of_mem _ ht)) fun s hs => ?_
      rcases mem_cleanStep hs with hs | ⟨rfl, h1, h2, h3⟩
      · exact hkept s hs
      · exact ⟨h1, h2, hl _ List.mem_cons_self, fun hr => h3 (by simpa [Rooted] using hr)⟩
  exact hfold _ [] (fun t ht => Text.notMem_of_mem_splitOn ht) (by simp) s (List.mem_reverse.mp h)

theorem element_of_mem_parts {path : Path} (hdots : ['.', '.'] ∉ parts path) {s : List Char}
    (h : s ∈ parts path) : Element s := by
  obtain ⟨h1, h2, h3, -⟩ := mem_parts h
  exact ⟨h1, h2, fun e => hdots (e ▸ h), h3⟩

theorem parts_extend (p : Path) {s : List Char} (h : Element s) :
    parts (p ++ '/' :: s) = parts p ++ [s] := by
  cases p with
  | nil =>
    have hsplit : ('/' :: s).splitOn '/' = [[], s] := by
      rw [List.splitOn_cons_eq_if_modifyHead, if_pos (by simp), List.splitOn_eq_singleton h.notMem]
    show (('/' :: s).splitOn '/' |>.foldl _ []).reverse = _
    rw [hsplit, List.foldl_cons, List.foldl_cons, List.foldl_nil, cleanStep_of_element h]
    rfl
  | cons c p =>
    unfold parts
    rw [List.splitOn_append_cons_self, List.splitOn_eq_singleton h.notMem, List.foldl_append,
      List.foldl_cons, List.foldl_nil, cleanStep_of_element h, List.reverse_cons]
    rfl

theorem join_eq_nil {parts : List (List Char)} (h : ∀ p ∈ parts, p ≠ []) :
    Text.join '/' parts = [] ↔ parts = [] := by
  constructor
  · intro hjoin
    cases parts with
    | nil => rfl
    | cons p parts =>
      cases parts with
      | nil =>
        have hp : p = [] := by simpa [Text.join] using hjoin
        exact absurd hp (h p List.mem_cons_self)
      | cons q parts => simp [Text.join, List.intercalate_cons_cons] at hjoin
  · rintro rfl
    rfl

theorem join_head {first : List Char} {parts : List (List Char)} (h : first ≠ []) :
    (Text.join '/' (first :: parts)).head? = first.head? := by
  obtain ⟨c, s, rfl⟩ := List.exists_cons_of_ne_nil h
  cases parts with
  | nil => simp [Text.join]
  | cons q parts => simp [Text.join, List.intercalate_cons_cons]

end Path

end Rustorr
