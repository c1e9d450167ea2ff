import Rustorr.Discovery.DnsGrammar

/-! Compressed names. What the table of suffixes points to is read back as it was written, and the
steps that takes are counted beside the writer. -/

namespace Rustorr.Dns

open DomainName (Reads IsPointer target)

/-- A label of 1 to 63 bytes without dots. -/
structure IsLabel (label : List Char) : Prop where
  ne_nil : label ≠ []
  dot_notMem : '.' ∉ label
  length_le : (Utf8.encode label).length ≤ 63

/-- Labels up to the case of ASCII letters. -/
def lower (labels : List (List Char)) : List (List Char) := labels.map fun l => l.map Char.toLower

theorem length_eq_of_lower_eq {labels labels' : List (List Char)} (h : lower labels = lower labels') :
    labels.length = labels'.length := by
  have hlen := congrArg List.length h
  unfold lower at hlen
  rwa [List.length_map, List.length_map] at hlen

theorem toLower_eq_dot {c : Char} (h : c.toLower = '.') : c = '.' := by
  unfold Char.toLower at h
  split at h
  · rename_i hc
    have hlow : 65 ≤ c.val.toNat := UInt32.le_iff_toNat_le.mp hc.1
    have hhigh : c.val.toNat ≤ 90 := UInt32.le_iff_toNat_le.mp hc.2
    have hval : (c.val.toNat + 32) % 2 ^ 32 = 46 := congrArg (fun c : Char => c.val.toNat) h
    omega
  · exact h

theorem suffix_eq : ∀ labels : List (List Char), suffix labels = ['.'].intercalate (lower labels)
  | [] => rfl
  | [label] => by
    unfold suffix lower
    rw [List.map_singleton, List.intercalate_singleton, List.intercalate_singleton]
  | label :: next :: labels => by
    have hrest := suffix_eq (next :: labels)
    unfold suffix lower at hrest ⊢
    rw [List.intercalate_cons_cons, List.map_append, List.map_append, hrest, List.map_cons,
      List.map_cons (l := next :: labels)]
    rw [List.map_cons, List.intercalate_cons_cons]
    rfl

theorem splitOn_suffix {labels : List (List Char)} (hne : labels ≠ [])
    (h : ∀ l ∈ labels, IsLabel l) : (suffix labels).splitOn '.' = lower labels := by
  rw [suffix_eq]
  apply List.splitOn_intercalate
  · intro l hl hdot
    obtain ⟨label, hlabel, rfl⟩ := List.mem_map.mp hl
    obtain ⟨c, hc, hdot⟩ := List.mem_map.mp hdot
    exact (h label hlabel).dot_notMem (toLower_eq_dot hdot ▸ hc)
  · exact fun h => hne (List.map_eq_nil_iff.mp h)

theorem lower_eq_of_suffix_eq {labels labels' : List (List Char)} (hne : labels ≠ [])
    (hne' : labels' ≠ []) (h : ∀ l ∈ labels, IsLabel l) (h' : ∀ l ∈ labels', IsLabel l)
    (heq : suffix labels = suffix labels') : lower labels = lower labels' := by
  rw [← splitOn_suffix hne h, heq, splitOn_suffix hne' h']

/-! ### The steps of each name -/

/-- How much is written, and how many steps it takes to read a name from each suffix on. -/
structure Layout where
  position : ℕ
  steps : Option (List Char → Option ℕ)

namespace Layout

def advance (n : ℕ) (l : Layout) : Layout := { l with position := l.position + n }

def find (l : Layout) (suffix : List Char) : Option ℕ := l.steps.bind fun steps => steps suffix

def hit (compressible : Bool) (l : Layout) (suffix : List Char) : Option ℕ :=
  if compressible then l.find suffix else none

/-- A step for each label, one for the end, or one to where the rest stands. -/
def stepsOf (compressible : Bool) (l : Layout) : List (List Char) → ℕ
  | [] => 1
  | label :: rest =>
    match l.hit compressible (suffix (label :: rest)) with
    | some k => k + 1
    | none => stepsOf compressible l rest + 1

def register (suffix : List Char) (k : ℕ) (l : Layout) : Layout :=
  if l.position < 0x3FFF then
    { l with steps := l.steps.map fun steps s =>
        if s = suffix then some ((steps s).getD k) else steps s }
  else l

def labels (compressible : Bool) : List (List Char) → Layout → Layout
  | [], l => l.advance 1
  | label :: rest, l =>
    match l.hit compressible (suffix (label :: rest)) with
    | some _ => l.advance 2
    | none => labels compressible rest
        ((l.register (suffix (label :: rest)) (l.stepsOf compressible (label :: rest))).advance
          ((Utf8.encode label).length + 1))

end Layout

def Writer.find (w : Writer) (suffix : List Char) : Option UInt16 :=
  w.names.bind fun names => names suffix

/-- A suffix can be read at a position. -/
def Entry (out : List UInt8) (labels : List (List Char)) (p : ℕ) (k : ℕ) : Prop :=
  ∃ ts e, lower ts = lower labels ∧ Reads ShortLength out p (ts.map Utf8.encode) k e

theorem Entry.append {out : List UInt8} {labels : List (List Char)} {p k : ℕ} (more : List UInt8)
    (h : Entry out labels p k) : Entry (out ++ more) labels p k := by
  obtain ⟨ts, e, hlower, hreads⟩ := h
  exact ⟨ts, e, hlower, hreads.append more⟩

/-- The table knows suffixes of so many labels. -/
def Knows (n : ℕ) (w : Writer) (l : Layout) : Prop :=
  ∀ labels : List (List Char), labels ≠ [] → (∀ t ∈ labels, IsLabel t) → labels.length ≤ n →
    ∀ p, w.find (suffix labels) = some p →
      p.toNat < 0x3FFF ∧ ∃ k, l.find (suffix labels) = some k ∧ Entry w.out labels p.toNat k

/-- The layout is that of what is written. -/
structure Follows (w : Writer) (l : Layout) : Prop where
  position : l.position = w.out.length
  isSome : ∀ s, (l.find s).isSome = (w.find s).isSome
  compressed : l.steps.isSome = w.names.isSome

theorem find_push (bytes : List UInt8) (w : Writer) (s : List Char) :
    (w.push bytes).find s = w.find s := rfl

theorem length_push (bytes : List UInt8) (w : Writer) :
    (w.push bytes).out.length = w.out.length + bytes.length := List.length_append

theorem find_advance (n : ℕ) (l : Layout) (s : List Char) : (l.advance n).find s = l.find s := rfl

theorem Follows.push {w : Writer} {l : Layout} (h : Follows w l) {bytes : List UInt8} {n : ℕ}
    (hn : bytes.length = n) : Follows (w.push bytes) (l.advance n) := by
  constructor
  · unfold Writer.push Layout.advance
    rw [List.length_append, h.position, hn]
  · exact h.isSome
  · exact h.compressed

theorem Knows.push {n : ℕ} {w : Writer} {l : Layout} (h : Knows n w l) (bytes : List UInt8)
    (m : ℕ) : Knows n (w.push bytes) (l.advance m) := by
  intro labels hne hlabels hlen p hp
  obtain ⟨hlt, k, hk, hentry⟩ := h labels hne hlabels hlen p hp
  exact ⟨hlt, k, hk, hentry.append bytes⟩

theorem find_register (w : Writer) (key s : List Char) :
    (w.register key).find s =
      if s = key ∧ w.out.length < 0x3FFF ∧ w.names.isSome then
        some ((w.find key).getD (UInt16.ofNat w.out.length))
      else w.find s := by
  unfold Writer.register Writer.find
  cases hnames : w.names with
  | none =>
    split
    · simp
    · simp [hnames]
  | some names =>
    by_cases hpos : w.out.length < 0x3FFF
    · by_cases hs : s = key
      · subst hs
        simp [hpos]
      · simp [hpos, hs]
    · simp [hpos, hnames]

theorem Layout.find_register (l : Layout) (key s : List Char) (k : ℕ) :
    (l.register key k).find s =
      if s = key ∧ l.position < 0x3FFF ∧ l.steps.isSome then some ((l.find key).getD k)
      else l.find s := by
  unfold Layout.register Layout.find
  cases hsteps : l.steps with
  | none =>
    split
    · simp
    · simp [hsteps]
  | some steps =>
    by_cases hpos : l.position < 0x3FFF
    · by_cases hs : s = key
      · subst hs
        simp [hpos]
      · simp [hpos, hs]
    · simp [hpos, hsteps]

theorem Follows.register {w : Writer} {l : Layout} (h : Follows w l) (key : List Char) (k : ℕ) :
    Follows (w.register key) (l.register key k) := by
  constructor
  · unfold Writer.register Layout.register
    rw [h.position]
    split
    · rfl
    · exact h.position
  · intro s
    rw [find_register, Layout.find_register, h.position, h.compressed]
    split
    · rfl
    · exact h.isSome s
  · have hcompressed := h.compressed
    unfold Writer.register Layout.register
    rw [h.position]
    split
    · simpa using hcompressed
    · exact hcompressed

theorem out_register (w : Writer) (key : List Char) : (w.register key).out = w.out := by
  unfold Writer.register
  split
  · rfl
  · rfl

/-- The two bytes of a pointer. -/
theorem be16_pointer {p : UInt16} (h : p.toNat < 0x3FFF) :
    ∃ high low, be16 (0xC000 ||| p) = [high, low] ∧ IsPointer high ∧ target high low = p.toNat := by
  have hor : (0xC000 ||| p).toNat = 2 ^ 14 * 3 + p.toNat := by
    rw [UInt16.toNat_or, Nat.two_pow_add_eq_or_of_lt (by omega)]
    rfl
  have hhigh : (0xC000 ||| p).toNat / 256 = 0xC0 + p.toNat / 256 := by omega
  have hbits : ∀ q < 64, IsPointer (UInt8.ofNat (0xC0 + q)) ∧
      (UInt8.ofNat (0xC0 + q) &&& 0x3F).toNat = q := by decide
  obtain ⟨hpointer, htarget⟩ := hbits (p.toNat / 256) (by omega)
  refine ⟨_, _, rfl, ?_, ?_⟩
  · rw [hhigh]
    exact hpointer
  · have hlow : (UInt8.ofNat (0xC000 ||| p).toNat).toNat = p.toNat % 256 := by
      rw [UInt8.toNat_ofNat']
      omega
    unfold target
    rw [hhigh, htarget, hlow, Nat.shiftLeft_eq, Nat.mul_comm,
      ← Nat.two_pow_add_eq_or_of_lt (Nat.mod_lt _ (by decide))]
    omega

theorem getElem?_append_length (out : List UInt8) (b : UInt8) (rest : List UInt8) :
    (out ++ b :: rest)[out.length]? = some b := by
  rw [List.getElem?_append_right (Nat.le_refl _), Nat.sub_self]
  rfl

theorem suffix_ne_of_length_lt {labels labels' : List (List Char)} (hne : labels ≠ [])
    (h : ∀ t ∈ labels, IsLabel t) (h' : ∀ t ∈ labels', IsLabel t)
    (hlt : labels.length < labels'.length) : suffix labels ≠ suffix labels' := by
  intro heq
  have hne' : labels' ≠ [] := List.ne_nil_of_length_pos (by omega)
  have hlower := length_eq_of_lower_eq (lower_eq_of_suffix_eq hne hne' h h' heq)
  omega

theorem labels_cons_hit {compressible : Bool} {label : List Char} {rest : List (List Char)}
    {w : Writer} {l : Layout} {p : UInt16} {k : ℕ} (hc : compressible = true)
    (hp : w.find (suffix (label :: rest)) = some p) (hk : l.find (suffix (label :: rest)) = some k) :
    w.labels compressible (label :: rest) = w.push (be16 (0xC000 ||| p)) ∧
      l.labels compressible (label :: rest) = l.advance 2 ∧
      l.stepsOf compressible (label :: rest) = k + 1 := by
  subst hc
  unfold Writer.find at hp
  refine ⟨?_, ?_, ?_⟩
  · unfold Writer.labels
    rw [if_pos rfl, hp]
  · unfold Layout.labels Layout.hit
    rw [if_pos rfl, hk]
  · unfold Layout.stepsOf Layout.hit
    rw [if_pos rfl, hk]

theorem labels_cons_miss {compressible : Bool} {label : List Char} {rest : List (List Char)}
    {w : Writer} {l : Layout} (hlabel : (Utf8.encode label).length ≤ 63)
    (hp : compressible = true → w.find (suffix (label :: rest)) = none)
    (hk : compressible = true → l.find (suffix (label :: rest)) = none) :
    w.labels compressible (label :: rest) = Writer.labels compressible rest
      ((w.register (suffix (label :: rest))).push
        (UInt8.ofNat (Utf8.encode label).length :: Utf8.encode label)) ∧
    l.labels compressible (label :: rest) = Layout.labels compressible rest
      ((l.register (suffix (label :: rest)) (l.stepsOf compressible (label :: rest))).advance
        ((Utf8.encode label).length + 1)) ∧
    l.stepsOf compressible (label :: rest) = l.stepsOf compressible rest + 1 := by
  have hhit : l.hit compressible (suffix (label :: rest)) = none := by
    unfold Layout.hit
    split
    · exact hk ‹_›
    · rfl
  have hmiss : (if compressible then w.names.bind fun names => names (suffix (label :: rest))
      else none) = none := by
    split
    · exact hp ‹_›
    · rfl
  refine ⟨?_, ?_, ?_⟩
  · rw [Writer.labels, hmiss, List.take_of_length_le hlabel]
  · rw [Layout.labels, hhit]
  · rw [Layout.stepsOf, hhit]

/-- The steps depend on what is known of the shorter suffixes only. -/
theorem stepsOf_congr (compressible : Bool) {l l' : Layout} : ∀ {labels : List (List Char)},
    (∀ s, s <:+ labels → s ≠ [] → l.find (suffix s) = l'.find (suffix s)) →
    l.stepsOf compressible labels = l'.stepsOf compressible labels
  | [], _ => rfl
  | label :: rest, h => by
    have hhit : l.hit compressible (suffix (label :: rest)) =
        l'.hit compressible (suffix (label :: rest)) := by
      unfold Layout.hit
      rw [h _ List.suffix_rfl (List.cons_ne_nil _ _)]
    have hrest := @stepsOf_congr compressible _ _ rest fun s hs hne =>
      h s (hs.trans (List.suffix_cons _ _)) hne
    unfold Layout.stepsOf
    rw [hhit, hrest]

/-- What the table says of a suffix was known before, or is so in what is written now. -/
def Grows (w w' : Writer) (l l' : Layout) : Prop :=
  ∀ s : List (List Char), s ≠ [] → (∀ t ∈ s, IsLabel t) → ∀ p, w'.find (suffix s) = some p →
    (w.find (suffix s) = some p ∧ l'.find (suffix s) = l.find (suffix s)) ∨
    (p.toNat < 0x3FFF ∧ ∃ k, l'.find (suffix s) = some k ∧ Entry w'.out s p.toNat k)

/-- A name is written so that it is read back, in as many steps as the layout counts. -/
theorem labels_spec (compressible : Bool) : ∀ {labels : List (List Char)},
    (∀ t ∈ labels, IsLabel t) → ∀ {w : Writer} {l : Layout}, Follows w l →
    Knows labels.length w l →
    Follows (w.labels compressible labels) (l.labels compressible labels) ∧
    w.out <+: (w.labels compressible labels).out ∧
    (∃ ts, lower ts = lower labels ∧
      Reads ShortLength (w.labels compressible labels).out w.out.length (ts.map Utf8.encode)
        (l.stepsOf compressible labels) (w.labels compressible labels).out.length) ∧
    Grows w (w.labels compressible labels) l (l.labels compressible labels)
  | [], _, w, l, hfollows, _ => by
    refine ⟨hfollows.push rfl, List.prefix_append _ _, ⟨[], rfl, ?_⟩, fun s _ _ p hp =>
      Or.inl ⟨hp, rfl⟩⟩
    have hend : (w.labels compressible []).out.length = w.out.length + 1 :=
      List.length_append
    rw [hend]
    exact .root (getElem?_append_length _ _ _)
  | label :: rest, hlabels, w, l, hfollows, hknows => by
    obtain ⟨hlabel, hrest⟩ := List.forall_mem_cons.mp hlabels
    have hne : label :: rest ≠ [] := List.cons_ne_nil _ _
    by_cases hhit : compressible = true ∧ (w.find (suffix (label :: rest))).isSome
    · -- the whole suffix stands elsewhere
      obtain ⟨hc, hsome⟩ := hhit
      obtain ⟨p, hp⟩ := Option.isSome_iff_exists.mp hsome
      obtain ⟨hlt, k, hk, ts, e, hlower, hreads⟩ := hknows _ hne hlabels (Nat.le_refl _) p hp
      obtain ⟨hwriter, hlayout, hsteps⟩ := labels_cons_hit hc hp hk
      obtain ⟨high, low, hbytes, hpointer, htarget⟩ := be16_pointer hlt
      rw [hwriter, hlayout, hsteps, hbytes]
      refine ⟨hfollows.push rfl, List.prefix_append _ _, ⟨ts, hlower, ?_⟩, fun s _ _ p hp =>
        Or.inl ⟨hp, rfl⟩⟩
      have hend : (w.push [high, low]).out.length = w.out.length + 2 := List.length_append
      rw [hend]
      apply Reads.pointer (getElem?_append_length _ _ _) hpointer
      · show (w.out ++ [high, low])[w.out.length + 1]? = some low
        rw [List.getElem?_append_right (by omega), Nat.add_sub_cancel_left]
        rfl
      · rw [htarget]
        exact hreads.append _
    · -- a label of its own, and the shorter suffix after it
      have hmiss : compressible = true → w.find (suffix (label :: rest)) = none := fun hc =>
        Option.not_isSome_iff_eq_none.mp fun hs => hhit ⟨hc, hs⟩
      have hmiss' : compressible = true → l.find (suffix (label :: rest)) = none := fun hc => by
        rw [← Option.not_isSome_iff_eq_none, hfollows.isSome, hmiss hc]
        exact Bool.false_ne_true
      obtain ⟨hwriter, hlayout, hsteps⟩ := labels_cons_miss hlabel.length_le hmiss hmiss'
      rw [hwriter, hlayout]
      set key := suffix (label :: rest)
      set bytes := Utf8.encode label
      set w₁ := (w.register key).push (UInt8.ofNat bytes.length :: bytes)
      set l₁ := (l.register key (l.stepsOf compressible (label :: rest))).advance (bytes.length + 1)
      have hfollows₁ : Follows w₁ l₁ := (hfollows.register key _).push rfl
      have hout₁ : w₁.out = w.out ++ UInt8.ofNat bytes.length :: bytes := by
        show (w.register key).out ++ _ = _
        rw [out_register]
      -- the new entry is for a longer suffix than those looked up from here
      have hshorter : ∀ s : List (List Char), s ≠ [] → (∀ t ∈ s, IsLabel t) →
          s.length ≤ rest.length → suffix s ≠ key := fun s hs hvalid hlen =>
        suffix_ne_of_length_lt hs hvalid hlabels (Nat.lt_succ_of_le hlen)
      have hfind : ∀ s, suffix s ≠ key → w₁.find (suffix s) = w.find (suffix s) ∧
          l₁.find (suffix s) = l.find (suffix s) := by
        intro s hs
        constructor
        · rw [find_push, find_register, if_neg fun h => hs h.1]
        · rw [find_advance, Layout.find_register, if_neg fun h => hs h.1]
      have hknows₁ : Knows rest.length w₁ l₁ := by
        intro s hs hvalid hlen p hp
        obtain ⟨hw, hl⟩ := hfind s (hshorter s hs hvalid hlen)
        rw [hw] at hp
        obtain ⟨hlt, k, hk, hentry⟩ := hknows s hs hvalid (Nat.le_succ_of_le hlen) p hp
        refine ⟨hlt, k, hl.trans hk, ?_⟩
        rw [hout₁]
        exact hentry.append _
      obtain ⟨hfollows', hprefix, ⟨ts, hlower, hreads⟩, hgrows⟩ :=
        labels_spec compressible hrest hfollows₁ hknows₁
      have hsame : l₁.stepsOf compressible rest = l.stepsOf compressible rest := by
        apply stepsOf_congr
        intro s hs hne
        exact (hfind s (hshorter s hne (fun t ht => hrest t (hs.subset ht)) hs.length_le)).2
      rw [hsame] at hreads
      set w' := Writer.labels compressible rest w₁
      have hwhole : Reads ShortLength w'.out w.out.length ((label :: ts).map Utf8.encode)
          (l.stepsOf compressible (label :: rest)) w'.out.length := by
        obtain ⟨more, hmore⟩ := hprefix
        have hlen : w₁.out.length = w.out.length + 1 + bytes.length := by
          rw [hout₁, List.length_append, List.length_cons]
          omega
        have hshort : bytes.length < 64 := Nat.lt_succ_of_le hlabel.length_le
        have hok : ShortLength (UInt8.ofNat bytes.length) := by
          unfold ShortLength
          rw [UInt8.toNat_ofNat']
          omega
        rw [hout₁] at hmore
        rw [hlen] at hreads
        rw [hsteps]
        exact Reads.cons_label w.out hmore.symm (Utf8.encode_ne_nil hlabel.ne_nil) hshort hok hreads
      refine ⟨hfollows', ?_, ⟨label :: ts, ?_, hwhole⟩, ?_⟩
      · refine List.IsPrefix.trans ?_ hprefix
        rw [hout₁]
        exact List.prefix_append _ _
      · unfold lower at hlower ⊢
        rw [List.map_cons, List.map_cons, hlower]
      · intro s hs hvalid p hp
        rcases hgrows s hs hvalid p hp with ⟨hp₁, hl₁⟩ | hnew
        case inr => exact Or.inr hnew
        by_cases hkey : suffix s = key
        case neg =>
          obtain ⟨hw, hl⟩ := hfind s hkey
          exact Or.inl ⟨hw.symm.trans hp₁, hl₁.trans hl⟩
        rw [find_push, find_register, hkey] at hp₁
        rw [find_advance, Layout.find_register, hfollows.position, hfollows.compressed, hkey] at hl₁
        rw [hkey]
        split at hp₁
        case isFalse hcond =>
          rw [if_neg hcond] at hl₁
          exact Or.inl ⟨hp₁, hl₁⟩
        rename_i hcond
        rw [if_pos hcond] at hl₁
        cases hold : w.find key with
        | some q =>
          obtain ⟨k, hk⟩ := Option.isSome_iff_exists.mp ((hfollows.isSome key).trans
            (by rw [hold, Option.isSome_some]))
          rw [hold, Option.getD_some] at hp₁
          rw [hk, Option.getD_some] at hl₁
          exact Or.inl ⟨hp₁, hl₁.trans hk.symm⟩
        | none =>
          have hknown : l.find key = none := by
            rw [← Option.not_isSome_iff_eq_none, hfollows.isSome, hold]
            exact Bool.false_ne_true
          rw [hold, Option.getD_none, Option.some_inj] at hp₁
          rw [hknown, Option.getD_none] at hl₁
          have hnat : p.toNat = w.out.length := by
            rw [← hp₁, UInt16.toNat_ofNat']
            omega
          have hlower' := lower_eq_of_suffix_eq hs hne hvalid hlabels hkey
          refine Or.inr ⟨by omega, _, hl₁, label :: ts, _, ?_, by rw [hnat]; exact hwhole⟩
          rw [hlower']
          unfold lower at hlower ⊢
          rw [List.map_cons, List.map_cons, hlower]

end Rustorr.Dns
