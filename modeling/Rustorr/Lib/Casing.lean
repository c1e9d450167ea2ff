import Rustorr.Lib.UrlQuery

/-! Lower case beyond ASCII. The tables of the character database are a parameter, with what they
promise stated of them. -/

structure Casing where
  /-- `char::to_lowercase`. -/
  lower : Char → List Char
  /-- A sigma ends its word, by what comes before it (the nearest first) and after it. -/
  finalSigma : List Char → List Char → Bool

namespace Casing

variable (u : Casing)

/-- One character of a text in lower case. -/
def lowerAt (before : List Char) (c : Char) (after : List Char) : List Char :=
  if c = 'Σ' then if u.finalSigma before after then ['ς'] else ['σ'] else u.lower c

def lowerFrom (before : List Char) : List Char → List Char
  | [] => []
  | c :: s => u.lowerAt before c s ++ lowerFrom (c :: before) s

/-- `str::to_lowercase`. -/
def toLowercase (s : List Char) : List Char := u.lowerFrom [] s

/-- What the tables of the character database promise. -/
structure Lawful : Prop where
  ascii : ∀ c, c < '\x80' → u.lower c = [c.toLower]
  /-- Only the dotted capital I and the Kelvin sign have ASCII letters in lower case. -/
  foreign : ∀ c, ¬ c < '\x80' → ∀ d ∈ u.lower c, d < '\x80' → d = 'i' ∨ d = 'k'
  settled : ∀ c, ∀ d ∈ u.lower c, u.lower d = [d]
  ne_nil : ∀ c, u.lower c ≠ []
  solid : ∀ c, Utf8.isWhitespace c = false → ∀ d ∈ u.lower c, Utf8.isWhitespace d = false
  sigma : u.lower 'Σ' = ['σ']
  final : u.lower 'ς' = ['ς']

/-- A text that has no other lower case. -/
def Settled (s : List Char) : Prop := ∀ d ∈ s, u.lower d = [d]

variable {u}

theorem lowerAt_cases (before : List Char) (c : Char) (after : List Char) :
    u.lowerAt before c after = u.lower c ∨
      c = 'Σ' ∧ (u.lowerAt before c after = ['ς'] ∨ u.lowerAt before c after = ['σ']) := by
  unfold lowerAt
  split
  · next hc =>
    right
    split
    · exact ⟨hc, Or.inl rfl⟩
    · exact ⟨hc, Or.inr rfl⟩
  · exact Or.inl rfl

/-- What holds of the whole of ASCII can be looked up. -/
theorem forall_ascii {P : Char → Prop} (h : ∀ n : Fin 128, P (Char.ofNat n)) {c : Char}
    (hc : c < '\x80') : P c := by
  have hlt : c.toNat < 128 := by
    rw [Char.lt_def, UInt32.lt_iff_toNat_lt] at hc
    exact hc
  have hchar := h ⟨c.toNat, hlt⟩
  rwa [Char.ofNat_toNat] at hchar

namespace Lawful

theorem settled_lowerAt (h : u.Lawful) (before : List Char) (c : Char) (after : List Char) :
    u.Settled (u.lowerAt before c after) := by
  rcases lowerAt_cases (u := u) before c after with heq | ⟨rfl, heq | heq⟩
  · rw [heq]
    exact h.settled c
  · rw [heq]
    exact List.forall_mem_singleton.mpr h.final
  · rw [heq, ← h.sigma]
    exact h.settled 'Σ'

theorem lowerAt_ne_nil (h : u.Lawful) (before : List Char) (c : Char) (after : List Char) :
    u.lowerAt before c after ≠ [] := by
  rcases lowerAt_cases (u := u) before c after with heq | ⟨rfl, heq | heq⟩
  · rw [heq]
    exact h.ne_nil c
  · rw [heq]
    exact List.cons_ne_nil _ _
  · rw [heq]
    exact List.cons_ne_nil _ _

theorem solid_lowerAt (h : u.Lawful) {c : Char} (hc : Utf8.isWhitespace c = false)
    (before after : List Char) :
    ∀ d ∈ u.lowerAt before c after, Utf8.isWhitespace d = false := by
  rcases lowerAt_cases (u := u) before c after with heq | ⟨rfl, heq | heq⟩
  · rw [heq]
    exact h.solid c hc
  · rw [heq]
    exact List.forall_mem_singleton.mpr (by decide)
  · rw [heq]
    exact List.forall_mem_singleton.mpr (by decide)

/-- Marks that are no such letters, alike in both cases, are as many in lower case. -/
theorem markCount_lowerAt (h : u.Lawful) {p : Char → Bool} (hletters : p 'i' = false ∧ p 'k' = false)
    (hcase : ∀ d, p d.toLower = p d) (before : List Char) (c : Char) (after : List Char) :
    UrlQuery.markCount p (u.lowerAt before c after) = UrlQuery.markCount p [c] := by
  have hlower : UrlQuery.markCount p (u.lower c) = UrlQuery.markCount p [c] := by
    unfold UrlQuery.markCount
    by_cases hascii : c < '\x80'
    · have hstill : c.toLower < '\x80' := forall_ascii (P := fun c => c.toLower < '\x80') (by decide) hascii
      rw [h.ascii c hascii, List.countP_singleton, List.countP_singleton, hcase,
        decide_eq_true hascii, decide_eq_true hstill]
    · rw [List.countP_singleton, decide_eq_false hascii, Bool.false_and,
        if_neg Bool.false_ne_true, List.countP_eq_zero]
      intro d hd hmark
      rw [Bool.and_eq_true, decide_eq_true_eq] at hmark
      rcases h.foreign c hascii d hd hmark.1 with rfl | rfl
      · rw [hletters.1] at hmark
        cases hmark.2
      · rw [hletters.2] at hmark
        cases hmark.2
  rcases lowerAt_cases (u := u) before c after with heq | ⟨rfl, heq | heq⟩
  · rw [heq, hlower]
  · rw [heq]
    rfl
  · rw [heq]
    rfl

theorem settled_toLowercase (h : u.Lawful) (s : List Char) : u.Settled (u.toLowercase s) := by
  have hfrom : ∀ before, u.Settled (u.lowerFrom before s) := by
    induction s with
    | nil => exact fun _ d hd => absurd hd List.not_mem_nil
    | cons c s ih =>
      intro before d hd
      rw [lowerFrom] at hd
      rcases List.mem_append.mp hd with hd | hd
      · exact h.settled_lowerAt before c s d hd
      · exact ih (c :: before) d hd
  exact hfrom []

theorem toLowercase_of_settled (h : u.Lawful) {s : List Char} (hs : u.Settled s) :
    u.toLowercase s = s := by
  have hfrom : ∀ before, u.lowerFrom before s = s := by
    induction s with
    | nil => exact fun _ => rfl
    | cons c s ih =>
      intro before
      have hne : c ≠ 'Σ' := by
        rintro rfl
        have hsame := hs 'Σ' List.mem_cons_self
        rw [h.sigma] at hsame
        cases hsame
      rw [lowerFrom, ih fun d hd => hs d (List.mem_cons_of_mem c hd), lowerAt, if_neg hne,
        hs c List.mem_cons_self, List.singleton_append]
  exact hfrom []

/-- A text of ASCII that has no capitals is in lower case. -/
theorem toLowercase_of_ascii (h : u.Lawful) {s : List Char}
    (hs : (s.all fun c => decide (c < '\x80' ∧ c.toLower = c)) = true) : u.toLowercase s = s := by
  apply h.toLowercase_of_settled
  intro c hc
  obtain ⟨hascii, hlower⟩ := of_decide_eq_true (List.all_eq_true.mp hs c hc)
  rw [h.ascii c hascii, hlower]

theorem markCount_toLowercase (h : u.Lawful) {p : Char → Bool}
    (hletters : p 'i' = false ∧ p 'k' = false) (hcase : ∀ d, p d.toLower = p d) (s : List Char) :
    UrlQuery.markCount p (u.toLowercase s) = UrlQuery.markCount p s := by
  have hfrom : ∀ before, UrlQuery.markCount p (u.lowerFrom before s) = UrlQuery.markCount p s := by
    induction s with
    | nil => exact fun _ => rfl
    | cons c s ih =>
      intro before
      rw [lowerFrom, UrlQuery.markCount_append, ih, h.markCount_lowerAt hletters hcase,
        ← UrlQuery.markCount_append, List.singleton_append]
  exact hfrom []

end Lawful

/-! ### Texts without white space around them -/

/-- Neither end of the text is white space. -/
structure Trimmed (s : List Char) : Prop where
  head : ∀ c ∈ s.head?, Utf8.isWhitespace c = false
  last : ∀ c ∈ s.getLast?, Utf8.isWhitespace c = false

theorem Trimmed.trim {s : List Char} (h : Trimmed s) : Utf8.trim s = s := by
  have hfront : s.dropWhile Utf8.isWhitespace = s := by
    cases s with
    | nil => rfl
    | cons c s =>
      rw [List.dropWhile_cons_of_neg]
      rw [h.head c rfl]
      exact Bool.false_ne_true
  unfold Utf8.trim
  rw [hfront, List.rdropWhile_eq_self_iff]
  intro hne
  rw [h.last _ (List.getLast?_eq_some_getLast hne)]
  exact Bool.false_ne_true

theorem trimmed_trim (s : List Char) : Trimmed (Utf8.trim s) := by
  have hlast : ∀ c ∈ (Utf8.trim s).getLast?, Utf8.isWhitespace c = false := by
    intro c hc
    unfold Utf8.trim at hc
    have hne : (s.dropWhile Utf8.isWhitespace).rdropWhile Utf8.isWhitespace ≠ [] := by
      intro hnil
      rw [hnil] at hc
      cases hc
    have hnot := List.rdropWhile_last_not Utf8.isWhitespace _ hne
    rw [List.getLast?_eq_some_getLast hne] at hc
    rw [← Option.some.inj hc, ← Bool.not_eq_true]
    exact hnot
  refine ⟨?_, hlast⟩
  intro c hc
  have hhead : (s.dropWhile Utf8.isWhitespace).head? = some c := by
    obtain ⟨rest, hrest⟩ : Utf8.trim s <+: s.dropWhile Utf8.isWhitespace := List.rdropWhile_prefix _ _
    rw [← hrest, List.head?_append, hc]
    rfl
  cases hdrop : s.dropWhile Utf8.isWhitespace with
  | nil =>
    rw [hdrop] at hhead
    cases hhead
  | cons d rest =>
    rw [hdrop] at hhead
    cases hhead
    have hne : s.dropWhile Utf8.isWhitespace ≠ [] := by
      rw [hdrop]
      exact List.cons_ne_nil _ _
    have hnot := List.head_dropWhile_not Utf8.isWhitespace (l := s) hne
    simpa only [hdrop, List.head_cons] using hnot

/-- Lower case brings no white space to the ends. -/
theorem Lawful.trimmed_toLowercase (h : u.Lawful) {s : List Char} (hs : Trimmed s) :
    Trimmed (u.toLowercase s) := by
  constructor
  · intro d hd
    cases s with
    | nil => cases hd
    | cons c s =>
      unfold toLowercase at hd
      rw [lowerFrom] at hd
      obtain ⟨first, others, hfirst⟩ := List.exists_cons_of_ne_nil (h.lowerAt_ne_nil [] c s)
      rw [hfirst] at hd
      cases hd
      exact h.solid_lowerAt (hs.head c rfl) [] s _ (by rw [hfirst]; exact List.mem_cons_self)
  · have hfrom : ∀ before, ∀ d ∈ (u.lowerFrom before s).getLast?, Utf8.isWhitespace d = false := by
      have hlast := hs.last
      clear hs
      induction s with
      | nil =>
        intro before d hd
        cases hd
      | cons c s ih =>
        intro before d hd
        rw [lowerFrom] at hd
        cases s with
        | nil =>
          rw [lowerFrom, List.append_nil] at hd
          exact h.solid_lowerAt (hlast c rfl) before [] d (List.mem_of_getLast? hd)
        | cons c' s =>
          rw [List.getLast?_append] at hd
          have hne : u.lowerFrom (c :: before) (c' :: s) ≠ [] := by
            rw [lowerFrom]
            exact List.append_ne_nil_of_left_ne_nil (h.lowerAt_ne_nil _ _ _) _
          rw [List.getLast?_eq_some_getLast hne, Option.some_or] at hd
          refine ih ?_ (c :: before) d (by rw [List.getLast?_eq_some_getLast hne]; exact hd)
          intro e he
          exact hlast e (by rw [List.getLast?_cons_cons]; exact he)
    exact hfrom []

end Casing
