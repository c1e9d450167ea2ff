import Mathlib.Data.Bool.AllAny
import Rustorr.Lib.UrlQuery
import Rustorr.Lifecycle.Links
import Rustorr.Lifecycle.TorrsRoundTrip

/-! What a magnet link that is written for a token carries, as a query is decoded: the token's
trackers, unless a character in them means something to URLs. -/

namespace Rustorr

open List (all_iff_forall_prop)
open TorrsHash (Zlib Decoded)
open UrlQuery

namespace Link

/-- The values of a parameter, in order. -/
def values (key : String) (fields : List (List Char × List Char)) : List (List Char) :=
  (fields.filter (·.1 = key.toList)).map (·.2)

def Carries (link : List Char) (hash : InfoHash) (trackers : List (List Char)) : Prop :=
  values "tr" (pairs (ofUrl link)) = trackers ∧
    values "xt" (pairs (ofUrl link)) = ["urn:btih:".toList ++ hash.toText]

/-- What URLs take away or take for something else. -/
def isReserved (c : Char) : Bool := c = '&' || c = '#' || c = '+' || isTabOrNewline c

/-- Nothing in a tracker means something to URLs, and the last does not end in a blank or a
control character. -/
def Unreserved (trackers : List (List Char)) : Prop :=
  (∀ t ∈ trackers, (∀ c ∈ t, isReserved c = false) ∧ hasTriplet t = false) ∧
    ∀ t ∈ trackers.getLast?, ∀ c ∈ t.getLast?, isC0OrSpace c = false

/-! ### Escaping -/

theorem escapeTracker_nil : escapeTracker [] = [] := rfl

theorem escapeTracker_append (s t : List Char) :
    escapeTracker (s ++ t) = escapeTracker s ++ escapeTracker t := List.flatMap_append

theorem escapeTracker_cons (c : Char) (t : List Char) :
    escapeTracker (c :: t) = escapeTracker [c] ++ escapeTracker t := escapeTracker_append [c] t

/-- A character is written as it is, or it is one that escapes are about. -/
theorem escaped_cases {P : Char → Prop} (hP : ∀ d ∈ ":/%3A2F".toList, P d) (c : Char) :
    (P c ∧ ∀ d ∈ escapeTracker [c], P d) ∨ escapeTracker [c] = [c] := by
  unfold escapeTracker
  rw [List.flatMap_singleton]
  have hcolon : ∀ d ∈ "%3A".toList, d ∈ ":/%3A2F".toList :=
    all_iff_forall_prop.mp (by decide)
  have hslash : ∀ d ∈ "%2F".toList, d ∈ ":/%3A2F".toList :=
    all_iff_forall_prop.mp (by decide)
  split_ifs with hc hc
  · rw [hc]
    exact Or.inl ⟨hP ':' (by decide), fun d hd => hP d (hcolon d hd)⟩
  · rw [hc]
    exact Or.inl ⟨hP '/' (by decide), fun d hd => hP d (hslash d hd)⟩
  · exact Or.inr rfl

theorem escapeTracker_singleton_ne_nil (c : Char) : escapeTracker [c] ≠ [] := by
  unfold escapeTracker
  rw [List.flatMap_singleton]
  split_ifs <;> exact List.cons_ne_nil _ _

/-- A test that what escapes are made of passes sees no difference. -/
theorem takeWhile_escapeTracker {p : Char → Bool} (hp : ∀ c ∈ ":/%3A2F".toList, p c = true)
    (t : List Char) : (escapeTracker t).takeWhile p = escapeTracker (t.takeWhile p) := by
  induction t with
  | nil => rfl
  | cons c t ih =>
    rw [escapeTracker_cons]
    rcases escaped_cases hp c with ⟨hc, hall⟩ | hsame
    · rw [List.takeWhile_append_of_pos hall, ih, List.takeWhile_cons_of_pos hc, ← escapeTracker_cons]
    · rw [hsame, List.singleton_append, List.takeWhile_cons, List.takeWhile_cons]
      split
      · rw [ih, escapeTracker_cons, hsame, List.singleton_append]
      · rfl

theorem filter_escapeTracker {p : Char → Bool} (hp : ∀ c ∈ ":/%3A2F".toList, p c = true)
    (t : List Char) : (escapeTracker t).filter p = escapeTracker (t.filter p) := by
  induction t with
  | nil => rfl
  | cons c t ih =>
    have happend : (c :: t).filter p = [c].filter p ++ t.filter p := List.filter_append [c] t
    rw [escapeTracker_cons, List.filter_append, ih, happend, escapeTracker_append]
    congr 1
    rcases escaped_cases hp c with ⟨hc, hall⟩ | hsame
    · rw [List.filter_eq_self.mpr hall, List.filter_cons_of_pos hc, List.filter_nil]
    · rw [hsame]
      cases hc : p c with
      | true => rw [List.filter_cons_of_pos hc, List.filter_nil, hsame]
      | false => rw [List.filter_cons_of_neg (by rw [hc]; exact Bool.false_ne_true)]; rfl

theorem rdropWhile_escapeTracker {p : Char → Bool} (hp : ∀ c ∈ ":/%3A2F".toList, p c = false)
    (t : List Char) : (escapeTracker t).rdropWhile p = escapeTracker (t.rdropWhile p) := by
  induction t using List.reverseRecOn with
  | nil => rfl
  | append_singleton t c ih =>
    rw [escapeTracker_append]
    rcases escaped_cases hp c with ⟨hc, hall⟩ | hsame
    · have hkeep : (escapeTracker [c]).rdropWhile p = escapeTracker [c] := by
        rw [List.rdropWhile_eq_self_iff]
        intro hne
        rw [hall _ (List.getLast_mem hne)]
        exact Bool.false_ne_true
      rw [List.rdropWhile_concat_neg p t c (by rw [hc]; exact Bool.false_ne_true),
        escapeTracker_append, rdropWhile_append, hkeep]
      apply Or.inr
      rw [hkeep]
      exact escapeTracker_singleton_ne_nil c
    · rw [hsame, List.rdropWhile_concat, List.rdropWhile_concat]
      split
      · exact ih
      · rw [escapeTracker_append, hsame]

theorem map_blank_escapeTracker (t : List Char) :
    (escapeTracker t).map blank = escapeTracker (t.map blank) := by
  induction t with
  | nil => rfl
  | cons c t ih =>
    rw [escapeTracker_cons, List.map_append, ih, List.map_cons, escapeTracker_cons (blank c)]
    congr 1
    rcases escaped_cases (P := fun d => blank d = d) (all_iff_forall_prop.mp (by decide)) c with ⟨hc, hall⟩ | hsame
    · rw [hc, List.map_congr_left hall, List.map_id']
    · rw [hsame, List.map_singleton]
      by_cases hplus : c = '+'
      · rw [hplus]
        rfl
      · have hblank : blank c = c := if_neg hplus
        rw [hblank, hsame]

theorem escapeTracker_begins (c : Char) (t : List Char) :
    (c = ':' ∧ escapeTracker (c :: t) = '%' :: '3' :: 'A' :: escapeTracker t) ∨
    (c = '/' ∧ escapeTracker (c :: t) = '%' :: '2' :: 'F' :: escapeTracker t) ∨
    (c ≠ ':' ∧ c ≠ '/' ∧ escapeTracker (c :: t) = c :: escapeTracker t) := by
  unfold escapeTracker
  rw [List.flatMap_cons]
  split_ifs with hcolon hslash
  · exact Or.inl ⟨hcolon, rfl⟩
  · exact Or.inr (Or.inl ⟨hslash, rfl⟩)
  · exact Or.inr (Or.inr ⟨hcolon, hslash, rfl⟩)

/-- What an escape begins with is no digit. -/
theorem byteOf_escapeTracker {t : List Char} (h : ∀ a b rest, t = a :: b :: rest → byteOf a b = none)
    (a b : Char) (rest : List Char) (ht : escapeTracker t = a :: b :: rest) : byteOf a b = none := by
  have hsecond : ∀ a, byteOf a '%' = none := by
    intro a
    unfold byteOf
    cases hexValue a <;> rfl
  cases t with
  | nil => cases ht
  | cons c t =>
    rcases escapeTracker_begins c t with ⟨-, hc⟩ | ⟨-, hc⟩ | ⟨-, -, hc⟩
    · rw [hc] at ht
      cases ht
      rfl
    · rw [hc] at ht
      cases ht
      rfl
    rw [hc] at ht
    obtain ⟨rfl, ht⟩ := List.cons.inj ht
    cases t with
    | nil => cases ht
    | cons d t =>
      rcases escapeTracker_begins d t with ⟨-, hd⟩ | ⟨-, hd⟩ | ⟨-, -, hd⟩
      · rw [hd] at ht
        cases ht
        exact hsecond c
      · rw [hd] at ht
        cases ht
        exact hsecond c
      · rw [hd] at ht
        cases ht
        exact h _ _ t rfl

theorem escapeTracker_of_hexValue {c : Char} (h : (hexValue c).isSome = true) (t : List Char) :
    escapeTracker (c :: t) = c :: escapeTracker t := by
  rcases escapeTracker_begins c t with ⟨rfl, -⟩ | ⟨rfl, -⟩ | ⟨-, -, hc⟩
  · cases h
  · cases h
  · exact hc

theorem percentDecode_escapeTracker (t : List Char) :
    percentDecode (escapeTracker t) = percentDecode t := by
  induction t using percentDecode.induct with
  | case1 a b rest byte hbyte ih =>
    have hdigits : (hexValue a).isSome = true ∧ (hexValue b).isSome = true := by
      unfold byteOf at hbyte
      obtain ⟨high, hhigh, hbyte⟩ := Option.bind_eq_some_iff.mp hbyte
      obtain ⟨low, hlow, -⟩ := Option.map_eq_some_iff.mp hbyte
      exact ⟨hhigh ▸ rfl, hlow ▸ rfl⟩
    have hescape : escapeTracker ('%' :: a :: b :: rest) = '%' :: a :: b :: escapeTracker rest := by
      rw [escapeTracker_cons, escapeTracker_of_hexValue hdigits.1, escapeTracker_of_hexValue hdigits.2]
      rfl
    rw [hescape, percentDecode, percentDecode, hbyte]
    simp only
    rw [ih]
  | case2 a b rest hbyte ih =>
    have hnone : ∀ x y more, a :: b :: rest = x :: y :: more → byteOf x y = none := by
      intro x y more hxy
      cases hxy
      exact hbyte
    rw [escapeTracker_cons, percentDecode_percent hnone, ← ih]
    exact percentDecode_percent (byteOf_escapeTracker hnone)
  | case3 c rest hne ih =>
    by_cases hpercent : c = '%'
    · subst hpercent
      have hnone : ∀ x y more, rest = x :: y :: more → byteOf x y = none :=
        fun x y more hxy => (hne x y more rfl hxy).elim
      rw [escapeTracker_cons, percentDecode_percent hnone, ← ih]
      exact percentDecode_percent (byteOf_escapeTracker hnone)
    rw [percentDecode_cons_of_ne hpercent, ← ih]
    rcases escapeTracker_begins c rest with ⟨rfl, hc⟩ | ⟨rfl, hc⟩ | ⟨-, -, hc⟩
    · rw [hc]
      rfl
    · rw [hc]
      rfl
    · rw [hc, percentDecode_cons_of_ne hpercent]
  | case4 => rfl

theorem component_escapeTracker (t : List Char) : component (escapeTracker t) = component t := by
  unfold component
  rw [map_blank_escapeTracker, percentDecode_escapeTracker]

/-! ### What is left of a tracker -/

/-- What a tracker shows of itself; the last one ends the link. -/
def kept (last : Prop) [Decidable last] (t : List Char) : List Char :=
  ((if last then t.rdropWhile isC0OrSpace else t).filter fun c => !isTabOrNewline c).takeWhile
    fun c => decide (c ≠ '&') && decide (c ≠ '#')

/-- A tracker that comes back from its link. -/
def Comes (last : Prop) (t : List Char) : Prop :=
  (∀ c ∈ t, isReserved c = false) ∧ hasTriplet t = false ∧
    (last → ∀ c ∈ t.getLast?, isC0OrSpace c = false)

theorem isAscii_of_isC0OrSpace {c : Char} (h : isC0OrSpace c = true) : c < '\x80' :=
  UInt32.lt_of_le_of_lt (of_decide_eq_true h) (by decide)

theorem shortens_kept (last : Prop) [Decidable last] (t : List Char) : Shortens (kept last t) t := by
  have hend : Shortens (if last then t.rdropWhile isC0OrSpace else t) t := by
    split
    · exact shortens_rdropWhile (fun c => isAscii_of_isC0OrSpace) t
    · exact Or.inl rfl
  have htabs : ∀ c, (!isTabOrNewline c) = false → c < '\x80' := fun c hc =>
    isAscii_of_isC0OrSpace (isC0OrSpace_of_isTabOrNewline (Bool.not_eq_eq_eq_not.mp hc))
  have hmarks : ∀ c : Char, (decide (c ≠ '&') && decide (c ≠ '#')) = false → c < '\x80' := by
    intro c hc
    rw [Bool.and_eq_false_iff, decide_eq_false_iff_not, decide_eq_false_iff_not, not_not, not_not] at hc
    rcases hc with rfl | rfl <;> decide
  exact ((shortens_takeWhile hmarks _).trans (shortens_filter htabs _)).trans hend

theorem kept_eq_self_iff {last : Prop} [Decidable last] {t : List Char} :
    kept last t = t ↔ (∀ c ∈ t, isTabOrNewline c = false ∧ c ≠ '&' ∧ c ≠ '#') ∧
      (last → ∀ c ∈ t.getLast?, isC0OrSpace c = false) := by
  constructor
  · intro h
    refine ⟨fun c hc => ?_, fun hlast c hc => ?_⟩
    · rw [← h] at hc
      unfold kept at hc
      have hmark := List.mem_takeWhile_imp hc
      have htab := (List.mem_filter.mp ((List.takeWhile_prefix _).subset hc)).2
      rw [Bool.and_eq_true, decide_eq_true_eq, decide_eq_true_eq] at hmark
      exact ⟨Bool.not_eq_eq_eq_not.mp htab, hmark⟩
    · have hprefix : t.rdropWhile isC0OrSpace <+: t := List.rdropWhile_prefix _ _
      have hlength : t.length ≤ (t.rdropWhile isC0OrSpace).length := by
        unfold kept at h
        rw [if_pos hlast] at h
        calc t.length = _ := congrArg List.length h.symm
          _ ≤ _ := (List.takeWhile_prefix _).length_le
          _ ≤ _ := List.length_filter_le _ _
      have hend := hprefix.eq_of_length_le hlength
      rw [List.rdropWhile_eq_self_iff] at hend
      rw [Option.mem_def, List.getLast?_eq_some_iff] at hc
      obtain ⟨front, rfl⟩ := hc
      have hneg := hend (List.append_ne_nil_of_right_ne_nil front (List.cons_ne_nil c []))
      rw [List.getLast_append_singleton] at hneg
      exact Bool.eq_false_iff.mpr hneg
  · rintro ⟨hall, hend⟩
    have hkeep : (if last then t.rdropWhile isC0OrSpace else t) = t := by
      split
      · next hlast =>
        rw [List.rdropWhile_eq_self_iff]
        intro hne
        rw [hend hlast _ (List.getLast?_eq_some_getLast hne)]
        exact Bool.false_ne_true
      · rfl
    have hfilter : (t.filter fun c => !isTabOrNewline c) = t := by
      rw [List.filter_eq_self]
      intro c hc
      rw [(hall c hc).1]
      rfl
    unfold kept
    rw [hkeep, hfilter, List.takeWhile_eq_self_iff]
    intro c hc
    rw [Bool.and_eq_true, decide_eq_true_eq, decide_eq_true_eq]
    exact (hall c hc).2

theorem isReserved_eq_false_iff {c : Char} : isReserved c = false ↔
    (isTabOrNewline c = false ∧ c ≠ '&' ∧ c ≠ '#') ∧ c ≠ '+' := by
  unfold isReserved
  simp only [Bool.or_eq_false_iff, decide_eq_false_iff_not]
  exact ⟨fun ⟨⟨⟨hamp, hhash⟩, hplus⟩, htab⟩ => ⟨⟨htab, hamp, hhash⟩, hplus⟩,
    fun ⟨⟨htab, hamp, hhash⟩, hplus⟩ => ⟨⟨⟨hamp, hhash⟩, hplus⟩, htab⟩⟩

theorem component_kept_iff {last : Prop} [Decidable last] {t : List Char} :
    component (kept last t) = t ↔ Comes last t := by
  constructor
  · intro h
    have hshort := shortens_kept last t
    have hle : asciiCount (kept last t) ≤ asciiCount t := by
      rcases hshort with hsame | hlt
      · rw [hsame]
      · exact hlt.le
    obtain ⟨htriplet, hmap⟩ := of_component_eq h hle
    have hcount : asciiCount t = asciiCount (kept last t) := by
      rw [hmap, asciiCount_map_blank, ← hmap]
    have hkept : kept last t = t := hshort.resolve_right (by rw [hcount]; exact lt_irrefl _)
    rw [hkept] at htriplet hmap
    have hplus : '+' ∉ t := map_blank_eq_self_iff.mp hmap.symm
    rw [← hmap] at htriplet
    obtain ⟨hall, hend⟩ := kept_eq_self_iff.mp hkept
    exact ⟨fun c hc => isReserved_eq_false_iff.mpr ⟨hall c hc, ne_of_mem_of_not_mem hc hplus⟩,
      htriplet, hend⟩
  · rintro ⟨hall, htriplet, hend⟩
    have hkept : kept last t = t :=
      kept_eq_self_iff.mpr ⟨fun c hc => (isReserved_eq_false_iff.mp (hall c hc)).1, hend⟩
    rw [hkept, component_eq_self_iff]
    exact ⟨fun hplus => (isReserved_eq_false_iff.mp (hall '+' hplus)).2 rfl, htriplet⟩

/-! ### The fields of a link -/

/-- The part of a link that is written for trackers. -/
def body (trackers : List (List Char)) : List Char :=
  trackers.flatMap fun tracker => "&tr=".toList ++ escapeTracker tracker

theorem body_cons (t : List Char) (ts : List (List Char)) :
    body (t :: ts) = "&tr=".toList ++ (escapeTracker t ++ body ts) := by
  unfold body
  rw [List.flatMap_cons, List.append_assoc]

theorem cut_body_cons (t : List Char) (ts : List (List Char)) :
    cut (body (t :: ts)) = "&tr=".toList ++ cut (escapeTracker t ++ body ts) := by
  rw [body_cons]
  exact cut_append (all_iff_forall_prop.mp (by decide)) (Or.inl (by decide))

theorem head_cut_body (ts : List (List Char)) : ∀ c ∈ (cut (body ts)).head?, c = '&' := by
  cases ts with
  | nil => exact fun c hc => nomatch hc
  | cons t ts =>
    rw [cut_body_cons]
    exact fun c hc => (Option.some.inj hc).symm

theorem takeWhile_append_cons_of_neg {p : Char → Bool} {x : Char} (h : p x = false)
    (a b : List Char) : (a ++ x :: b).takeWhile p = a.takeWhile p := by
  rw [List.takeWhile_append]
  split
  · next hlength =>
    rw [List.takeWhile_cons_of_neg (by rw [h]; exact Bool.false_ne_true), List.append_nil]
    exact ((List.takeWhile_prefix p).eq_of_length hlength).symm
  · rfl

/-- Up to the next `&` a tracker shows what is kept of it. -/
theorem takeWhile_cut (t : List Char) (ts : List (List Char)) :
    (cut (escapeTracker t ++ body ts)).takeWhile (· ≠ '&') = escapeTracker (kept (ts = []) t) := by
  unfold cut kept
  rw [List.takeWhile_takeWhile]
  have hmarks : (fun c => decide (decide (c ≠ '&') = true ∧ decide (c ≠ '#') = true)) =
      fun c : Char => decide (c ≠ '&') && decide (c ≠ '#') := by
    funext c
    rw [Bool.decide_and, Bool.decide_eq_true, Bool.decide_eq_true]
  rw [hmarks]
  cases ts with
  | nil =>
    rw [if_pos rfl]
    show List.takeWhile _ (List.filter _ (List.rdropWhile _ (escapeTracker t ++ []))) = _
    rw [List.append_nil, rdropWhile_escapeTracker (all_iff_forall_prop.mp (by decide)),
      filter_escapeTracker (all_iff_forall_prop.mp (by decide)),
      takeWhile_escapeTracker (all_iff_forall_prop.mp (by decide))]
  | cons t' ts =>
    have hamp : ∀ rest, ('&' :: rest).rdropWhile isC0OrSpace = '&' :: rest.rdropWhile isC0OrSpace :=
      fun rest => List.rdropWhile_append_of_neg (l := ['&'])
        (all_iff_forall_prop.mp (by decide))
    have hbody : body (t' :: ts) = '&' :: ("tr=".toList ++ (escapeTracker t' ++ body ts)) :=
      body_cons t' ts
    rw [if_neg (List.cons_ne_nil t' ts), hbody, rdropWhile_append, hamp, List.filter_append,
      filter_escapeTracker (all_iff_forall_prop.mp (by decide)), List.filter_cons_of_pos (by decide),
      takeWhile_append_cons_of_neg (by decide), 
      takeWhile_escapeTracker (all_iff_forall_prop.mp (by decide))]
    apply Or.inr
    rw [hamp]
    exact List.cons_ne_nil _ _

theorem pairs_body_cons (t : List Char) (ts : List (List Char)) :
    pairs (cut (body (t :: ts))) = ("tr".toList, component (kept (ts = []) t)) ::
      pairs ((cut (escapeTracker t ++ body ts)).dropWhile (· ≠ '&')) := by
  have hsplit := List.takeWhile_append_dropWhile (p := fun c => decide (c ≠ '&'))
    (l := cut (escapeTracker t ++ body ts))
  have hvalue : '&' ∉ escapeTracker (kept (ts = []) t) := by
    rw [← takeWhile_cut]
    intro hmem
    have hne := List.mem_takeWhile_imp hmem
    exact absurd hne (by decide)
  have hrest : ∀ c ∈ ((cut (escapeTracker t ++ body ts)).dropWhile (· ≠ '&')).head?, c = '&' := by
    intro c hc
    have hhead := List.head?_dropWhile_not (fun c => decide (c ≠ '&')) (cut (escapeTracker t ++ body ts))
    rw [Option.mem_def.mp hc] at hhead
    simpa using hhead
  have hfield := pairs_field "tr".toList (by decide) hvalue hrest
  rw [component_escapeTracker, ← takeWhile_cut, component_eq_self_iff.mpr (by decide)] at hfield
  have hwhole : "tr".toList ++ '=' :: cut (escapeTracker t ++ body ts) = "tr".toList ++
      '=' :: (cut (escapeTracker t ++ body ts)).takeWhile (· ≠ '&') ++
        (cut (escapeTracker t ++ body ts)).dropWhile (· ≠ '&') := by
    rw [List.append_assoc, List.cons_append, hsplit]
  calc pairs (cut (body (t :: ts)))
      = pairs ('&' :: ("tr".toList ++ '=' :: cut (escapeTracker t ++ body ts))) := by
        rw [cut_body_cons]
        rfl
    _ = pairs ("tr".toList ++ '=' :: cut (escapeTracker t ++ body ts)) := pairs_cons _
    _ = _ := by rw [hwhole, hfield]

theorem forall_escapeTracker {P : Char → Prop} {t : List Char} (hP : ∀ d ∈ ":/%3A2F".toList, P d)
    (ht : ∀ c ∈ t, P c) : ∀ c ∈ escapeTracker t, P c := by
  induction t with
  | nil => exact fun c hc => absurd hc List.not_mem_nil
  | cons d t ih =>
    intro c hc
    rw [escapeTracker_cons] at hc
    rcases List.mem_append.mp hc with hc | hc
    · rcases escaped_cases hP d with ⟨-, hall⟩ | hsame
      · exact hall c hc
      · rw [hsame, List.mem_singleton] at hc
        rw [hc]
        exact ht d List.mem_cons_self
    · exact ih (fun c hc => ht c (List.mem_cons_of_mem d hc)) c hc

theorem pairs_rest {t : List Char} {ts : List (List Char)} (h : Comes (ts = []) t) :
    (cut (escapeTracker t ++ body ts)).dropWhile (· ≠ '&') = cut (body ts) := by
  obtain ⟨hall, -, hend⟩ := h
  have hplain := fun c hc => (isReserved_eq_false_iff.mp (hall c hc)).1
  have hkeep : (escapeTracker t).rdropWhile isC0OrSpace = escapeTracker t ∨
      (body ts).rdropWhile isC0OrSpace ≠ [] := by
    cases ts with
    | nil =>
      have hsame : t.rdropWhile isC0OrSpace = t := by
        rw [List.rdropWhile_eq_self_iff]
        intro hne
        rw [hend rfl _ (List.getLast?_eq_some_getLast hne)]
        exact Bool.false_ne_true
      rw [rdropWhile_escapeTracker (all_iff_forall_prop.mp (by decide)), hsame]
      exact Or.inl rfl
    | cons t' ts =>
      apply Or.inr
      rw [body_cons]
      intro hnil
      rw [List.rdropWhile_eq_nil_iff] at hnil
      exact absurd (hnil '&' (List.mem_append_left _ (by decide))) (by decide)
  have hcut : cut (escapeTracker t ++ body ts) = escapeTracker t ++ cut (body ts) :=
    cut_append (forall_escapeTracker (all_iff_forall_prop.mp (by decide)) fun c hc =>
      ⟨(hplain c hc).1, (hplain c hc).2.2⟩) hkeep
  rw [hcut, List.dropWhile_append_of_pos (forall_escapeTracker (all_iff_forall_prop.mp (by decide)) fun c hc =>
    decide_eq_true (hplain c hc).2.1)]
  cases hhead : cut (body ts) with
  | nil => rfl
  | cons c rest =>
    have hamp := head_cut_body ts c (by rw [hhead]; rfl)
    rw [hamp]
    rfl

/-! ### The link that is written for a token -/

theorem values_cons_self (key : String) (value : List Char) (fields : List (List Char × List Char)) :
    values key ((key.toList, value) :: fields) = value :: values key fields := by
  unfold values
  rw [List.filter_cons, if_pos (decide_eq_true rfl), List.map_cons]

theorem values_cons_of_ne {key other : String} (h : other.toList ≠ key.toList) (value : List Char)
    (fields : List (List Char × List Char)) :
    values key ((other.toList, value) :: fields) = values key fields := by
  unfold values
  rw [List.filter_cons, if_neg (by rwa [decide_eq_true_eq])]

theorem unreserved_cons {t : List Char} {ts : List (List Char)} :
    Unreserved (t :: ts) ↔ Comes (ts = []) t ∧ Unreserved ts := by
  unfold Unreserved Comes
  rw [List.forall_mem_cons]
  cases ts with
  | nil =>
    constructor
    · rintro ⟨⟨⟨hall, htriplet⟩, hrest⟩, hend⟩
      exact ⟨⟨hall, htriplet, fun _ => hend t rfl⟩, hrest, fun t ht => nomatch ht⟩
    · rintro ⟨⟨hall, htriplet, hend⟩, hrest, -⟩
      refine ⟨⟨⟨hall, htriplet⟩, hrest⟩, fun t' ht' => ?_⟩
      rw [← Option.some.inj ht']
      exact hend rfl
  | cons t' ts =>
    rw [List.getLast?_cons_cons]
    constructor
    · rintro ⟨⟨⟨hall, htriplet⟩, hrest⟩, hend⟩
      exact ⟨⟨hall, htriplet, fun hnil => nomatch hnil⟩, hrest, hend⟩
    · rintro ⟨⟨hall, htriplet, -⟩, hrest, hend⟩
      exact ⟨⟨⟨hall, htriplet⟩, hrest⟩, hend⟩

theorem fields_of_unreserved {trackers : List (List Char)} (h : Unreserved trackers) :
    pairs (cut (body trackers)) = trackers.map fun t => ("tr".toList, t) := by
  induction trackers with
  | nil => rfl
  | cons t ts ih =>
    obtain ⟨ht, hts⟩ := unreserved_cons.mp h
    rw [pairs_body_cons, pairs_rest ht, component_kept_iff.mpr ht, ih hts, List.map_cons]

theorem unreserved_of_values {trackers : List (List Char)}
    (h : values "tr" (pairs (cut (body trackers))) = trackers) : Unreserved trackers := by
  induction trackers with
  | nil => exact ⟨fun t ht => absurd ht List.not_mem_nil, fun t ht => nomatch ht⟩
  | cons t ts ih =>
    rw [pairs_body_cons, values_cons_self] at h
    obtain ⟨ht, hts⟩ := List.cons.inj h
    have hcomes := component_kept_iff.mp ht
    rw [pairs_rest hcomes] at hts
    exact unreserved_cons.mpr ⟨hcomes, ih hts⟩

/-- No digit of a hash means something to URLs. -/
theorem plain_of_mem_toText {hash : InfoHash} {c : Char} (h : c ∈ hash.toText) :
    isC0OrSpace c = false ∧ isReserved c = false ∧ c ≠ '%' := by
  have hdigit := isHex_of_fromStr (InfoHash.fromStr_toText hash) c h
  have hlow : '0' ≤ c := by
    unfold InfoHash.toDigit at hdigit
    split_ifs at hdigit with hnumber hlower hupper
    · exact hnumber.1
    · exact Char.le_trans (by decide) hlower.1
    · exact Char.le_trans (by decide) hupper.1
    · cases hdigit
  have hspace : isC0OrSpace c = false := decide_eq_false fun hle =>
    absurd (Char.le_trans hlow hle) (by decide)
  have hne : ∀ d, (InfoHash.toDigit d).isSome = false → c ≠ d := by
    rintro d hd rfl
    rw [hd] at hdigit
    cases hdigit
  refine ⟨hspace, isReserved_eq_false_iff.mpr ⟨⟨?_, ?_, ?_⟩, ?_⟩, ?_⟩
  · rw [Bool.eq_false_iff]
    intro htab
    rw [isC0OrSpace_of_isTabOrNewline htab] at hspace
    cases hspace
  all_goals exact hne _ (by decide)

/-- The query of a link for a hash and trackers. -/
theorem pairs_magnetOf (hash : InfoHash) (trackers : List (List Char)) :
    pairs (ofUrl (magnetOf hash.toText trackers)) =
      ("xt".toList, "urn:btih:".toList ++ hash.toText) :: pairs (cut (body trackers)) := by
  have hplain : ∀ c ∈ "xt=urn:btih:".toList ++ hash.toText,
      isC0OrSpace c = false ∧ isReserved c = false ∧ c ≠ '%' := by
    have hname : ∀ c ∈ "xt=urn:btih:".toList,
        isC0OrSpace c = false ∧ isReserved c = false ∧ c ≠ '%' :=
      all_iff_forall_prop.mp (by decide)
    intro c hc
    rcases List.mem_append.mp hc with hc | hc
    · exact hname c hc
    · exact plain_of_mem_toText hc
  have hend : ("xt=urn:btih:".toList ++ hash.toText).rdropWhile isC0OrSpace =
      "xt=urn:btih:".toList ++ hash.toText := by
    rw [List.rdropWhile_eq_self_iff]
    intro hne
    rw [(hplain _ (List.getLast_mem hne)).1]
    exact Bool.false_ne_true
  have hlink : magnetOf hash.toText trackers =
      'm' :: "agnet:".toList ++ '?' :: ("xt=urn:btih:".toList ++ hash.toText ++ body trackers) := by
    unfold magnetOf body
    rw [List.append_assoc, List.append_assoc]
    rfl
  have hfront := fun c hc => isReserved_eq_false_iff.mp (hplain c hc).2.1
  have hcut : cut ("xt=urn:btih:".toList ++ hash.toText ++ body trackers) =
      "xt=urn:btih:".toList ++ hash.toText ++ cut (body trackers) :=
    cut_append (fun c hc => ⟨(hfront c hc).1.1, (hfront c hc).1.2.2⟩) (Or.inl hend)
  have hvalue : ∀ c ∈ "urn:btih:".toList ++ hash.toText, isReserved c = false ∧ c ≠ '%' :=
    fun c hc => (hplain c (List.mem_append_right "xt=".toList hc)).2
  have hfield := pairs_field "xt".toList
    (by decide) (fun hc => (isReserved_eq_false_iff.mp (hvalue _ hc).1).1.2.1 rfl)
    (head_cut_body trackers)
  have hsame : component ("urn:btih:".toList ++ hash.toText) = "urn:btih:".toList ++ hash.toText :=
    component_eq_self_iff.mpr ⟨fun hc => (isReserved_eq_false_iff.mp (hvalue _ hc).1).2 rfl,
      hasTriplet_of_notMem fun hc => (hvalue _ hc).2 rfl⟩
  rw [hsame, component_eq_self_iff.mpr (by decide)] at hfield
  rw [hlink, ofUrl_append (all_iff_forall_prop.mp (by decide)), hcut]
  exact hfield

/-- A link carries the trackers it was written for, and its hash, exactly if nothing in the
trackers means something to URLs. -/
theorem carries_magnetOf_iff (hash : InfoHash) (trackers : List (List Char)) :
    Carries (magnetOf hash.toText trackers) hash trackers ↔ Unreserved trackers := by
  unfold Carries
  rw [pairs_magnetOf, values_cons_of_ne (by decide), values_cons_self]
  constructor
  · exact fun h => unreserved_of_values h.1
  · intro h
    rw [fields_of_unreserved h]
    clear h
    induction trackers with
    | nil => exact ⟨rfl, rfl⟩
    | cons t ts ih =>
      rw [List.map_cons, values_cons_self, values_cons_of_ne (by decide), ih.1, ih.2]
      exact ⟨rfl, rfl⟩

/-- No token holds a `&`. -/
theorem amp_notMem_of_decode {z : Zlib} {token : List Char} {d : Decoded}
    (h : TorrsHash.decode z token = some d) : '&' ∉ token := by
  intro hmem
  have hrest : '&' ∈ TorrsHash.stripPrefix "torrs://".toList token := by
    unfold TorrsHash.stripPrefix
    split
    · next hprefix =>
      obtain ⟨rest, rfl⟩ := List.isPrefixOf_iff_prefix.mp hprefix
      rw [List.drop_left]
      exact (List.mem_append.mp hmem).resolve_left (by decide)
    · exact hmem
  unfold TorrsHash.decode at h
  obtain ⟨packed, hpacked, -⟩ := Option.bind_eq_some_iff.mp h
  unfold TorrsHash.unbase62 at hpacked
  obtain ⟨ds, hds, -⟩ := Option.map_eq_some_iff.mp hpacked
  have hletter := Radix.mem_of_ofLetters hds '&' (mem_trim hrest (by decide))
  revert hletter
  decide

theorem unescape_of_notMem {link : List Char} (h : '&' ∉ link) : unescape link = link := by
  induction link with
  | nil => rfl
  | cons c link ih =>
    rw [unescape, ih fun hc => h (List.mem_cons_of_mem c hc)]
    intro rest hc
    exact absurd (hc ▸ List.mem_cons_self) h

/-- A token becomes a magnet link. -/
theorem addTorrent_token {z : Zlib} {token : List Char} {d : Decoded}
    (h : TorrsHash.decode z token = some d) (request : AddTorrent) :
    (addTorrent z token request).2 = .magnet (magnetOf d.hash.toText d.trackers) := by
  -- A link with another scheme is no token.
  have hother : ∀ scheme rest : List Char, ':' ∈ scheme →
      (∀ rest, "torrs://".toList.isPrefixOf (scheme ++ rest) = false) → token ≠ scheme ++ rest := by
    rintro scheme rest hcolon hscheme rfl
    rw [decode_eq_none (List.mem_append_left rest hcolon) (hscheme rest)] at h
    cases h
  have hfile : token.dropPrefix? "file://".toList = none := by
    rw [Option.eq_none_iff_forall_ne_some]
    intro path hpath
    obtain ⟨start, hstart, hbeq⟩ := List.dropPrefix?_eq_some_iff.mp hpath
    obtain rfl : start = "file://".toList := eq_of_beq hbeq
    exact hother _ path (by decide) (fun _ => rfl) hstart
  have hmagnet : isMagnet token = false := by
    rw [Bool.eq_false_iff]
    intro hmagnet
    obtain ⟨rest, hrest⟩ := isMagnet_iff.mp hmagnet
    exact hother _ rest (by decide) (fun _ => rfl) hrest
  unfold addTorrent
  rw [unescape_of_notMem (amp_notMem_of_decode h)]
  simp only
  rw [hfile, hmagnet, h]
  rfl

/-- The magnet link of a token carries the token's trackers in order, and its hash alone, exactly
if no tracker holds a character or a triplet that means something to URLs. -/
theorem magnet_of_token_carries_iff {z : Zlib} {token : List Char} {d : Decoded}
    (h : TorrsHash.decode z token = some d) (request : AddTorrent) :
    ∃ link, (addTorrent z token request).2 = .magnet link ∧
      (Carries link d.hash d.trackers ↔ Unreserved d.trackers) :=
  ⟨_, addTorrent_token h request, carries_magnetOf_iff d.hash d.trackers⟩

/-! ### Tokens with one tracker -/

/-- The record of a hash and one tracker. -/
def recordOf (tracker : String) : List UInt8 :=
  (hashOf 1).bytes ++ [tracker.toList].flatMap (TorrsHash.field 2)

/-- The record in one block that is not packed, and the sum over it. -/
def storedStream (tracker : String) (sum : List UInt8) : List UInt8 :=
  let record := recordOf tracker
  0x78 :: [0x01, 0x01] ++ TorrsHash.u16Bytes record.length ++
    TorrsHash.u16Bytes (0xffff - record.length) ++ record ++ sum

theorem decode_storedStream (tracker : String) (sum : List UInt8)
    (hfits : (Utf8.encode (Utf8.trim tracker.toList)).length < 2 ^ 16)
    (htrim : [tracker.toList].map Utf8.trim = [tracker.toList]) (hne : tracker.toList.isEmpty = false) :
    TorrsHash.decode (TorrsHash.oneStream (recordOf tracker) [] (storedStream tracker sum))
      (TorrsHash.base62 (storedStream tracker sum)) =
        some ⟨hashOf 1, [], [], [], [tracker.toList]⟩ := by
  have hdecompress : (TorrsHash.oneStream (recordOf tracker) [] (storedStream tracker sum)).decompress
      (storedStream tracker sum) = some (recordOf tracker) := if_pos rfl
  have hpacked : TorrsHash.unbase62 (TorrsHash.base62 (storedStream tracker sum)) =
      some (storedStream tracker sum) := TorrsHash.unbase62_base62 (by decide)
  have hlength := (hashOf 1).length_bytes
  have hrecord : recordOf tracker = (hashOf 1).bytes ++ [tracker.toList].flatMap (TorrsHash.field 2) :=
    rfl
  unfold TorrsHash.decode
  rw [TorrsHash.stripPrefix_base62, hpacked]
  simp only [Option.bind_eq_bind, Option.bind_some, hdecompress]
  simp only [hrecord, List.take_left' hlength, List.drop_left' hlength]
  rw [dif_pos hlength, TorrsHash.decodeFields_trackers (fun t ht => by
    rw [List.mem_singleton.mp ht]
    exact hfits)]
  rw [htrim, List.nil_append, List.filter_cons_of_pos (by rw [hne]; rfl)]
  rfl

theorem magnet_of_token_carries_plain :
    ∃ z token d, TorrsHash.decode z token = some d ∧ d.trackers = ["http://t:80/a?k=1".toList] ∧
      ∃ link, (addTorrent z token plainRequest).2 = .magnet link ∧
        (Carries link d.hash d.trackers ↔ Unreserved d.trackers) := by
  have hdecode := decode_storedStream "http://t:80/a?k=1" [53, 189, 5, 62]
    (by decide) (by decide) (by decide)
  exact ⟨_, _, _, hdecode, rfl, magnet_of_token_carries_iff hdecode plainRequest⟩

/-- A tracker with two parameters of its own loses the second, which becomes one of the link. -/
theorem magnet_of_token_drops_parameter :
    ∃ z token d, TorrsHash.decode z token = some d ∧ d.trackers = ["http://t:80/a?k=1&x=2".toList] ∧
      (∃ link, (addTorrent z token plainRequest).2 = .magnet link ∧
        pairs (ofUrl link) = [("xt".toList, "urn:btih:".toList ++ d.hash.toText),
          ("tr".toList, "http://t:80/a?k=1".toList), ("x".toList, "2".toList)]) ∧
      ¬∀ z token d request, TorrsHash.decode z token = some d →
        ∃ link, (addTorrent z token request).2 = .magnet link ∧ Carries link d.hash d.trackers := by
  have hdecode := decode_storedStream "http://t:80/a?k=1&x=2" [77, 189, 6, 79]
    (by decide) (by decide) (by decide)
  refine ⟨_, _, _, hdecode, rfl, ⟨_, addTorrent_token hdecode plainRequest, by decide⟩,
    fun hall => ?_⟩
  obtain ⟨link, hlink, hcarries⟩ := hall _ _ _ plainRequest hdecode
  rw [addTorrent_token hdecode] at hlink
  cases hlink
  rw [carries_magnetOf_iff] at hcarries
  have hamp := (hcarries.1 _ List.mem_cons_self).1 '&' (by decide)
  exact absurd hamp (by decide)

end Link

end Rustorr
