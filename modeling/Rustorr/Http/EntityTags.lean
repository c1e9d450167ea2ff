import Mathlib.Data.List.DropRight
import Mathlib.Data.Nat.Notation
import Mathlib.Tactic.Common

/-! Entity tags and lists of them (`serve_content.rs`), against the way RFC 9110 writes them. -/

namespace Rustorr.Conditional

abbrev Bytes := List UInt8

inductive Condition
  | none
  | true
  | false
  deriving DecidableEq

def isBlank (b : UInt8) : Bool := b = 0x20 || b = 0x09 || b = 0x0a || b = 0x0d

/-- `trim_matches([' ', '\t', '\n', '\r'])`. -/
def trim (text : Bytes) : Bytes := (text.dropWhile isBlank).rdropWhile isBlank

def quote : UInt8 := 0x22

def comma : UInt8 := 0x2c

def asterisk : UInt8 := 0x2a

/-- `W/`. -/
def weakMark : Bytes := [0x57, 0x2f]

/-- The characters of a tag. -/
def isTagByte (b : UInt8) : Bool := b = 0x21 || (0x23 ≤ b && b ≤ 0x7e) || 0x80 ≤ b

/-- The loop of `scan_etag`: up to the closing quote, and the rest. -/
def scanValue : Bytes → Option (Bytes × Bytes)
  | [] => none
  | b :: text =>
    if isTagByte b then (scanValue text).map fun p => (b :: p.1, p.2)
    else if b = quote then some ([b], text)
    else none

def scanEtag (text : Bytes) : Option (Bytes × Bytes) :=
  let text := trim text
  let start := if weakMark <+: text then 2 else 0
  if text.length < start + 2 ∨ text[start]? ≠ some quote then none
  else (scanValue (text.drop (start + 1))).map fun p => (text.take (start + 1) ++ p.1, p.2)

def strongMatch (tag : Bytes) (etag : Option Bytes) : Bool :=
  match etag with
  | some etag => tag = etag && tag.head? = some quote
  | none => false

/-- `trim_start_matches("W/")`. -/
def trimWeak : Bytes → Bytes
  | 0x57 :: 0x2f :: text => trimWeak text
  | text => text

def weakMatch (tag : Bytes) (etag : Option Bytes) : Bool := trimWeak tag = trimWeak (etag.getD [])

/-! ### Entity tags -/

/-- An entity tag, as RFC 9110 writes it. -/
structure EntityTag where
  weak : Bool
  value : Bytes
  allowed : value.all isTagByte = true

def EntityTag.bytes (t : EntityTag) : Bytes :=
  (if t.weak then weakMark else []) ++ quote :: (t.value ++ [quote])

def EntityTag.strongEq (t u : EntityTag) : Prop := t.weak = false ∧ u.weak = false ∧ t.value = u.value

def EntityTag.weakEq (t u : EntityTag) : Prop := t.value = u.value

theorem quote_not_tagByte : isTagByte quote = false := by decide

theorem scanValue_eq_some {text tag rest : Bytes} :
    scanValue text = some (tag, rest) ↔
      ∃ value, value.all isTagByte = true ∧ tag = value ++ [quote] ∧ text = tag ++ rest := by
  induction text generalizing tag with
  | nil =>
    constructor
    · intro h
      cases h
    · rintro ⟨value, -, rfl, h⟩
      rw [List.append_assoc] at h
      exact absurd h.symm (List.append_ne_nil_of_right_ne_nil _ (List.cons_ne_nil _ _))
  | cons b text ih =>
    unfold scanValue
    by_cases hb : isTagByte b = true
    · rw [if_pos hb, Option.map_eq_some_iff]
      constructor
      · rintro ⟨⟨tag', rest'⟩, hscan, heq⟩
        cases heq
        obtain ⟨value, hall, rfl, rfl⟩ := ih.mp hscan
        refine ⟨b :: value, ?_, rfl, rfl⟩
        rw [List.all_cons, hb, hall]
        rfl
      · rintro ⟨value, hall, rfl, htext⟩
        cases value with
        | nil =>
          have hquote : b = quote := (List.cons.inj htext).1
          rw [hquote, quote_not_tagByte] at hb
          cases hb
        | cons c value =>
          obtain ⟨rfl, hrest⟩ := List.cons.inj htext
          rw [List.all_cons, Bool.and_eq_true] at hall
          exact ⟨(value ++ [quote], rest), ih.mpr ⟨value, hall.2, rfl, hrest⟩, rfl⟩
    · rw [if_neg hb]
      by_cases hquote : b = quote
      · rw [if_pos hquote]
        constructor
        · intro h
          cases h
          refine ⟨[], rfl, ?_, rfl⟩
          rw [hquote]
          rfl
        · rintro ⟨value, hall, rfl, htext⟩
          cases value with
          | nil =>
            obtain ⟨rfl, rfl⟩ := List.cons.inj htext
            rfl
          | cons c value =>
            obtain ⟨rfl, -⟩ := List.cons.inj htext
            rw [List.all_cons, Bool.and_eq_true] at hall
            exact absurd hall.1 hb
      · rw [if_neg hquote]
        constructor
        · intro h
          cases h
        · rintro ⟨value, hall, rfl, htext⟩
          cases value with
          | nil => exact absurd (List.cons.inj htext).1 hquote
          | cons c value =>
            obtain ⟨rfl, -⟩ := List.cons.inj htext
            rw [List.all_cons, Bool.and_eq_true] at hall
            exact absurd hall.1 hb

/-- What is scanned behind `W/`, or behind nothing. -/
theorem scanFrom_eq_some {mark text tag rest : Bytes} (hmark : mark <+: text) :
    (if text.length < mark.length + 2 ∨ text[mark.length]? ≠ some quote then none
      else (scanValue (text.drop (mark.length + 1))).map fun p =>
        (text.take (mark.length + 1) ++ p.1, p.2)) = some (tag, rest) ↔
      ∃ value, value.all isTagByte = true ∧ tag = mark ++ quote :: (value ++ [quote]) ∧
        text = tag ++ rest := by
  obtain ⟨text, rfl⟩ := hmark
  have hhead : (mark ++ text)[mark.length]? = text.head? := by
    rw [List.getElem?_append_right (Nat.le_refl _), Nat.sub_self, List.head?_eq_getElem?]
  rw [hhead]
  constructor
  · intro h
    split at h
    · cases h
    · next hnot =>
      rw [not_or, not_not] at hnot
      obtain ⟨⟨tag', rest'⟩, hscan, heq⟩ := Option.map_eq_some_iff.mp h
      obtain ⟨text, rfl⟩ := List.head?_eq_some_iff.mp hnot.2
      rw [List.drop_append, List.drop_eq_nil_of_le (Nat.le_succ _), Nat.add_sub_cancel_left] at hscan
      obtain ⟨value, hall, rfl, rfl⟩ := scanValue_eq_some.mp hscan
      have htake : (mark ++ quote :: (value ++ [quote] ++ rest')).take (mark.length + 1) =
          mark ++ [quote] := by
        rw [List.take_append, List.take_of_length_le (Nat.le_succ _), Nat.add_sub_cancel_left]
        rfl
      rw [htake] at heq
      cases heq
      refine ⟨value, hall, ?_, ?_⟩
      · simp only [List.append_assoc, List.cons_append, List.nil_append]
      · simp only [List.append_assoc, List.cons_append, List.nil_append]
  · rintro ⟨value, hall, rfl, htext⟩
    rw [List.append_assoc] at htext
    obtain rfl := List.append_cancel_left htext
    have hscan : scanValue (value ++ [quote] ++ rest) = some (value ++ [quote], rest) :=
      scanValue_eq_some.mpr ⟨value, hall, rfl, rfl⟩
    have hlong : ¬(mark ++ (quote :: (value ++ [quote]) ++ rest)).length < mark.length + 2 := by
      simp only [List.length_append, List.length_cons, List.length_nil]
      omega
    have hquote : (quote :: (value ++ [quote]) ++ rest).head? = some quote := rfl
    rw [if_neg (not_or.mpr ⟨hlong, not_not.mpr hquote⟩), List.drop_append,
      List.drop_eq_nil_of_le (Nat.le_succ _), Nat.add_sub_cancel_left, List.take_append,
      List.take_of_length_le (Nat.le_succ _), Nat.add_sub_cancel_left]
    show (scanValue (value ++ [quote] ++ rest)).map _ = _
    rw [hscan]
    show some (mark ++ [quote] ++ (value ++ [quote]), rest) = _
    rw [List.append_assoc]
    rfl

/-- Where the text begins with a tag, the scan takes it; where it does not, the scan takes
nothing. -/
theorem scanEtag_eq_some {text tag rest : Bytes} :
    scanEtag text = some (tag, rest) ↔
      ∃ t : EntityTag, tag = t.bytes ∧ trim text = tag ++ rest := by
  unfold scanEtag
  dsimp only
  generalize trim text = text
  by_cases hweak : weakMark <+: text
  · rw [if_pos hweak]
    refine (scanFrom_eq_some hweak).trans ⟨?_, ?_⟩
    · rintro ⟨value, hall, htag, htext⟩
      exact ⟨⟨true, value, hall⟩, htag, htext⟩
    · rintro ⟨⟨weak, value, hall⟩, rfl, rfl⟩
      cases weak with
      | true => exact ⟨value, hall, rfl, rfl⟩
      | false =>
        obtain ⟨u, hu⟩ := hweak
        cases (List.cons.inj hu).1
  · rw [if_neg hweak]
    have hnone : ([] : Bytes) <+: text := List.nil_prefix
    refine (scanFrom_eq_some hnone).trans ⟨?_, ?_⟩
    · rintro ⟨value, hall, htag, htext⟩
      exact ⟨⟨false, value, hall⟩, htag, htext⟩
    · rintro ⟨⟨weak, value, hall⟩, rfl, rfl⟩
      cases weak with
      | true => exact absurd ⟨quote :: (value ++ [quote]) ++ rest, rfl⟩ hweak
      | false => exact ⟨value, hall, rfl, rfl⟩

/-! ### Lists of tags -/

/-- The answer where the list matches. -/
def matched : Condition → Condition
  | .true => .true
  | _ => .false

/-- The answer where it ends without a match. -/
def unmatched : Condition → Condition
  | .true => .false
  | _ => .true

theorem length_trim_le (text : Bytes) : (trim text).length ≤ text.length := by
  unfold trim
  exact ( List.rdropWhile_prefix _ _).length_le.trans (List.dropWhile_suffix _).length_le

theorem EntityTag.length_bytes_pos (t : EntityTag) : 0 < t.bytes.length := by
  unfold EntityTag.bytes
  rw [List.length_append, List.length_cons]
  exact Nat.lt_add_left _ (Nat.succ_pos _)

theorem length_of_scanEtag {text tag rest : Bytes} (h : scanEtag text = some (tag, rest)) :
    rest.length < text.length := by
  obtain ⟨t, rfl, htext⟩ := scanEtag_eq_some.mp h
  have hpos := t.length_bytes_pos
  have hle := length_trim_le text
  rw [htext, List.length_append] at hle
  omega

/-- The loop of `tag_list`. -/
def tagList (list : Bytes) (star : Condition) (isMatch : Bytes → Bool) : Condition :=
  match _hrest : trim list with
  | [] => unmatched star
  | b :: after =>
    if b = comma then tagList after star isMatch
    else if b = asterisk then star
    else match _hscan : scanEtag (b :: after) with
      | none => unmatched star
      | some (tag, remaining) =>
        if isMatch tag then matched star else tagList remaining star isMatch
termination_by list.length
decreasing_by
  · have hle := length_trim_le list
    rw [_hrest, List.length_cons] at hle
    omega
  · have hle := length_trim_le list
    have hlt := length_of_scanEtag _hscan
    rw [_hrest] at hle
    omega

def isSeparator (b : UInt8) : Bool := isBlank b || b = comma

/-- Blanks, commas and tags, in any order. -/
inductive Elements : Bytes → Prop
  | nil : Elements []
  | separator {b : UInt8} {text : Bytes} : isSeparator b = true → Elements text → Elements (b :: text)
  | tag (t : EntityTag) {text : Bytes} : Elements text → Elements (t.bytes ++ text)

/-- Behind well-formed elements, `*` or a tag like this stands in the list. -/
def Listed (list : Bytes) (P : EntityTag → Prop) : Prop :=
  ∃ before after, Elements before ∧
    (list = before ++ asterisk :: after ∨ ∃ t, P t ∧ list = before ++ (t.bytes ++ after))

section Listed

variable {P : EntityTag → Prop} {text rest list : Bytes} {b : UInt8}

theorem EntityTag.eq_of_append {t u : EntityTag} {rest' : Bytes}
    (h : t.bytes ++ rest = u.bytes ++ rest') : t = u ∧ rest = rest' := by
  have hvalue : ∀ (v v' : Bytes), v.all isTagByte = true → v'.all isTagByte = true →
      v ++ [quote] ++ rest = v' ++ [quote] ++ rest' → v = v' ∧ rest = rest' := by
    intro v v' hv hv' heq
    have hscan : scanValue (v ++ [quote] ++ rest) = some (v ++ [quote], rest) :=
      scanValue_eq_some.mpr ⟨v, hv, rfl, rfl⟩
    rw [heq, scanValue_eq_some.mpr ⟨v', hv', rfl, rfl⟩] at hscan
    obtain ⟨hbytes, hrest⟩ := Prod.mk.inj (Option.some.inj hscan)
    exact ⟨(List.append_cancel_right hbytes).symm, hrest.symm⟩
  obtain ⟨weak, value, hall⟩ := t
  obtain ⟨weak', value', hall'⟩ := u
  cases weak <;> cases weak'
  · obtain ⟨rfl, rfl⟩ := hvalue value value' hall hall' (List.cons.inj h).2
    exact ⟨rfl, rfl⟩
  · cases (List.cons.inj h).1
  · cases (List.cons.inj h).1
  · obtain ⟨rfl, rfl⟩ := hvalue value value' hall hall'
      (List.cons.inj (List.cons.inj (List.cons.inj h).2).2).2
    exact ⟨rfl, rfl⟩

/-- A tag begins with neither a separator nor `*`. -/
theorem EntityTag.head_bytes (t : EntityTag) :
    ∃ c text, t.bytes = c :: text ∧ isSeparator c = false ∧ c ≠ asterisk := by
  obtain ⟨weak, value, hall⟩ := t
  cases weak with
  | false => exact ⟨quote, value ++ [quote], rfl, by decide, by decide⟩
  | true => exact ⟨0x57, 0x2f :: quote :: (value ++ [quote]), rfl, by decide, by decide⟩

theorem EntityTag.ne_of_separator (hb : isSeparator b = true) (t : EntityTag) :
    b :: text ≠ t.bytes ++ rest := by
  intro h
  obtain ⟨c, text', hbytes, hc, -⟩ := t.head_bytes
  rw [hbytes] at h
  rw [(List.cons.inj h).1, hc] at hb
  cases hb

theorem Elements.cases_separator (hb : isSeparator b = true) (h : Elements (b :: text)) :
    Elements text := by
  generalize heq : b :: text = text' at h
  cases h with
  | nil => cases heq
  | separator _ htext =>
    cases heq
    exact htext
  | tag t _ => exact absurd heq (EntityTag.ne_of_separator hb t)

theorem Elements.cases_tag {t : EntityTag} (h : Elements text)
    (heq : t.bytes ++ rest = text ++ list) (hne : text ≠ []) :
    ∃ text', text = t.bytes ++ text' ∧ rest = text' ++ list ∧ Elements text' := by
  cases h with
  | nil => exact absurd rfl hne
  | separator hb _ => exact absurd heq.symm (EntityTag.ne_of_separator hb t)
  | @tag u text' htext =>
    rw [List.append_assoc] at heq
    obtain ⟨rfl, rfl⟩ := EntityTag.eq_of_append heq
    exact ⟨text', rfl, rfl, htext⟩

theorem listed_separator (hb : isSeparator b = true) : Listed (b :: list) P ↔ Listed list P := by
  constructor
  · rintro ⟨before, after, hbefore, h⟩
    cases before with
    | nil =>
      rcases h with h | ⟨t, -, h⟩
      · rw [(List.cons.inj h).1] at hb
        cases hb
      · exact absurd h (EntityTag.ne_of_separator hb t)
    | cons c before =>
      have hc : c = b := by
        rcases h with h | ⟨t, -, h⟩ <;> exact (List.cons.inj h).1.symm
      rw [hc] at hbefore h
      refine ⟨before, after, hbefore.cases_separator hb, ?_⟩
      rcases h with h | ⟨t, ht, h⟩
      · exact Or.inl (List.cons.inj h).2
      · exact Or.inr ⟨t, ht, (List.cons.inj h).2⟩
  · rintro ⟨before, after, hbefore, h⟩
    refine ⟨b :: before, after, .separator hb hbefore, ?_⟩
    rcases h with h | ⟨t, ht, h⟩
    · exact Or.inl (congrArg (b :: ·) h)
    · exact Or.inr ⟨t, ht, congrArg (b :: ·) h⟩

theorem listed_asterisk : Listed (asterisk :: list) P := ⟨[], list, .nil, Or.inl rfl⟩

theorem listed_tag (t : EntityTag) : Listed (t.bytes ++ rest) P ↔ P t ∨ Listed rest P := by
  constructor
  · rintro ⟨before, after, hbefore, h⟩
    by_cases hnil : before = []
    · rw [hnil] at h
      rcases h with h | ⟨u, hu, h⟩
      · obtain ⟨c, text, hbytes, -, hc⟩ := t.head_bytes
        rw [hbytes] at h
        exact absurd (List.cons.inj h).1 hc
      · rw [(EntityTag.eq_of_append h).1]
        exact Or.inl hu
    · refine Or.inr ?_
      rcases h with h | ⟨u, hu, h⟩
      · obtain ⟨before', -, hrest, hbefore'⟩ := hbefore.cases_tag h hnil
        exact ⟨before', after, hbefore', Or.inl hrest⟩
      · obtain ⟨before', -, hrest, hbefore'⟩ := hbefore.cases_tag h hnil
        exact ⟨before', after, hbefore', Or.inr ⟨u, hu, hrest⟩⟩
  · rintro (ht | ⟨before, after, hbefore, h⟩)
    · exact ⟨[], rest, .nil, Or.inr ⟨t, ht, rfl⟩⟩
    · refine ⟨t.bytes ++ before, after, .tag t hbefore, ?_⟩
      rcases h with h | ⟨u, hu, h⟩
      · exact Or.inl (by rw [h, List.append_assoc])
      · exact Or.inr ⟨u, hu, by rw [h, List.append_assoc]⟩

/-- Where neither a separator nor `*` nor a tag stands, the list is malformed. -/
theorem not_listed_of_malformed (hne : isSeparator b = false) (hstar : b ≠ asterisk)
    (htag : ∀ (t : EntityTag) rest, b :: list ≠ t.bytes ++ rest) : ¬Listed (b :: list) P := by
  rintro ⟨before, after, hbefore, h⟩
  cases hbefore with
  | nil =>
    rcases h with h | ⟨t, -, h⟩
    · exact hstar (List.cons.inj h).1
    · exact htag t after h
  | @separator c text hc _ =>
    have hb : b = c := by
      rcases h with h | ⟨t, -, h⟩ <;> exact (List.cons.inj h).1
    rw [hb, hc] at hne
    cases hne
  | @tag t text _ =>
    rcases h with h | ⟨u, -, h⟩
    · rw [List.append_assoc] at h
      exact htag t _ h
    · rw [List.append_assoc] at h
      exact htag t _ h

theorem not_listed_nil : ¬Listed [] P := by
  rintro ⟨before, after, -, h | ⟨t, -, h⟩⟩
  · exact absurd h.symm (List.append_ne_nil_of_right_ne_nil _ (List.cons_ne_nil _ _))
  · obtain ⟨c, text, hbytes, -, -⟩ := t.head_bytes
    rw [hbytes] at h
    exact absurd h.symm (List.append_ne_nil_of_right_ne_nil _ (List.cons_ne_nil _ _))

theorem listed_concat (hb : isBlank b = true) : Listed (list ++ [b]) P ↔ Listed list P := by
  have hlast : ∀ {text after : Bytes} {c : UInt8}, c ≠ b →
      list ++ [b] = text ++ c :: after → ∃ after', after = after' ++ [b] := by
    intro text after c hc h
    rcases List.eq_nil_or_concat after with rfl | ⟨after', d, rfl⟩
    · exact absurd (List.append_inj_right' h rfl) fun h => hc (List.cons.inj h).1.symm
    · refine ⟨after', ?_⟩
      rw [List.concat_eq_append] at h ⊢
      rw [← List.cons_append, ← List.append_assoc] at h
      rw [List.append_inj_right' h rfl]
  constructor
  · rintro ⟨before, after, hbefore, h⟩
    rcases h with h | ⟨t, ht, h⟩
    · obtain ⟨after', rfl⟩ := hlast (by rintro rfl; cases hb) h
      refine ⟨before, after', hbefore, Or.inl ?_⟩
      rw [← List.cons_append, ← List.append_assoc] at h
      exact List.append_cancel_right h
    · have hquote : list ++ [b] =
          (before ++ ((if t.weak then weakMark else []) ++ quote :: t.value)) ++ quote :: after := by
        rw [h]
        unfold EntityTag.bytes
        simp only [List.append_assoc, List.cons_append, List.nil_append]
      obtain ⟨after', rfl⟩ := hlast (by rintro rfl; cases hb) hquote
      refine ⟨before, after', hbefore, Or.inr ⟨t, ht, ?_⟩⟩
      rw [← List.append_assoc, ← List.append_assoc] at h
      rw [← List.append_assoc]
      exact List.append_cancel_right h
  · rintro ⟨before, after, hbefore, h⟩
    refine ⟨before, after ++ [b], hbefore, ?_⟩
    rcases h with h | ⟨t, ht, h⟩
    · exact Or.inl (by rw [h, List.append_assoc]; rfl)
    · exact Or.inr ⟨t, ht, by rw [h, List.append_assoc, List.append_assoc]⟩

theorem listed_dropWhile : Listed (list.dropWhile isBlank) P ↔ Listed list P := by
  induction list with
  | nil => rfl
  | cons b list ih =>
    rw [List.dropWhile_cons]
    split
    · next hb =>
      rw [ih, listed_separator]
      unfold isSeparator
      rw [hb]
      rfl
    · rfl

theorem listed_rdropWhile : Listed (list.rdropWhile isBlank) P ↔ Listed list P := by
  induction list using List.reverseRecOn with
  | nil => rfl
  | append_singleton list b ih =>
    rw [List.rdropWhile_concat]
    split
    · next hb => rw [ih, listed_concat hb]
    · rfl

theorem listed_trim : Listed (trim list) P ↔ Listed list P :=
  listed_rdropWhile.trans listed_dropWhile

theorem isBlank_head_trim (h : trim list = b :: text) : isBlank b = false := by
  obtain ⟨rest, hrest⟩ : trim list <+: list.dropWhile isBlank := List.rdropWhile_prefix _ _
  have hhead := List.head?_dropWhile_not isBlank list
  rw [← hrest, h] at hhead
  exact hhead

theorem trim_trim (list : Bytes) : trim (trim list) = trim list := by
  have hfront : (trim list).dropWhile isBlank = trim list := by
    cases h : trim list with
    | nil => rfl
    | cons b text =>
      rw [List.dropWhile_cons, isBlank_head_trim h]
      rfl
  have hback : (trim list).rdropWhile isBlank = trim list := List.rdropWhile_idempotent _ _
  calc trim (trim list) = ((trim list).dropWhile isBlank).rdropWhile isBlank := rfl
    _ = (trim list).rdropWhile isBlank := by rw [hfront]
    _ = trim list := hback

/-- The scan of a list finds what is listed, and ends on every list. -/
theorem tagList_eq (star : Condition) (hstar : matched star = star) (isMatch : Bytes → Bool)
    (hmatch : ∀ t : EntityTag, isMatch t.bytes = true ↔ P t) (list : Bytes) :
    (Listed list P → tagList list star isMatch = matched star) ∧
      (¬Listed list P → tagList list star isMatch = unmatched star) := by
  induction list using (measure List.length).wf.induction with
  | _ list ih =>
    have hle := length_trim_le list
    have hidem := trim_trim list
    rw [← listed_trim]
    unfold tagList
    split
    · next hrest =>
      rw [hrest]
      exact ⟨fun h => absurd h not_listed_nil, fun _ => rfl⟩
    · next b after hrest =>
      rw [hrest] at hle hidem ⊢
      by_cases hcomma : b = comma
      · have hb : isSeparator b = true := by
          rw [hcomma]
          decide
        rw [if_pos hcomma, listed_separator hb]
        exact ih after hle
      · rw [if_neg hcomma]
        by_cases hasterisk : b = asterisk
        · rw [if_pos hasterisk, hasterisk]
          exact ⟨fun _ => hstar.symm, fun h => absurd listed_asterisk h⟩
        · rw [if_neg hasterisk]
          split
          · next hscan =>
            have hnone : ¬Listed (b :: after) P := by
              refine not_listed_of_malformed ?_ hasterisk fun t rest h => ?_
              · unfold isSeparator
                rw [isBlank_head_trim hrest, Bool.false_or]
                exact decide_eq_false hcomma
              · have hsome := scanEtag_eq_some.mpr ⟨t, rfl, hidem.trans h⟩
                rw [hscan] at hsome
                cases hsome
            exact ⟨fun h => absurd h hnone, fun _ => rfl⟩
          · next tag remaining hscan =>
            have hlt := length_of_scanEtag hscan
            obtain ⟨t, rfl, htext⟩ := scanEtag_eq_some.mp hscan
            rw [hidem.symm.trans htext, listed_tag]
            by_cases ht : isMatch t.bytes = true
            · rw [if_pos ht]
              exact ⟨fun _ => rfl, fun h => absurd (Or.inl ((hmatch t).mp ht)) h⟩
            · rw [if_neg ht]
              have hrest := ih remaining (Nat.lt_of_lt_of_le hlt hle)
              refine ⟨fun h => hrest.1 (h.resolve_left fun hP => ht ((hmatch t).mpr hP)),
                fun h => hrest.2 fun h' => h (Or.inr h')⟩

end Listed

end Rustorr.Conditional
