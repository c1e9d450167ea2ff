import Mathlib.Data.Bool.AllAny
import Rustorr.Lib.Utf8
import Rustorr.Lib.Utf8Slice

/-! The parser of the `If` header (`webdav/lock.rs`). A function answers `none` where a text would be
cut inside a character, or a loop would not end. -/

namespace Rustorr.IfParser

open Utf8Slice

structure Condition where
  not : Bool
  token : List Char
  etag : List Char
  deriving DecidableEq

/-- One list of an `If` header. -/
structure IfList where
  resourceTag : List Char
  conditions : List Condition
  deriving DecidableEq

inductive Token
  | eof
  | error
  | str (text : List Char)
  | not
  | angle (text : List Char)
  | square (text : List Char)
  | char (c : Char)
  deriving DecidableEq

def isBlank (c : Char) : Bool := c == ' ' || c == '\t'

def isDelimiter (c : Char) : Bool :=
  c == '\t' || c == ' ' || c == '(' || c == ')' || c == '<' || c == '>' || c == '[' || c == ']'

/-- The first token of a text and what follows it. -/
def lex (s : List Char) : Option (Token × List Char) :=
  let s := s.dropWhile isBlank
  if s = [] then some (.eof, [])
  else
    let stop := (find isDelimiter s).getD (size s)
    if stop ≠ 0 then do
      let (text, rest) ← splitAt s stop
      return if text = "Not".toList then (.not, rest) else (.str text, rest)
    else match s with
      | [] => none
      | first :: _ =>
        if first = '<' ∨ first = '[' then do
          let inside ← sliceFrom s 1
          match find (· == if first = '<' then '>' else ']') inside with
          | some stop => do
            let inner ← slice s 1 (stop + 1)
            let rest ← sliceFrom s (stop + 2)
            return (if first = '<' then .angle inner else .square inner, rest)
          | none => return (.error, [])
        else (sliceFrom s 1).map fun rest => (.char first, rest)

def parseCondition (s : List Char) : Option (Option (Condition × List Char)) := do
  let (token, rest) ← lex s
  let not := token == .not
  let (token, rest) ← if not then lex rest else some (token, rest)
  return match token with
    | .str text | .angle text => some (⟨not, text, []⟩, rest)
    | .square text => some (⟨not, [], text⟩, rest)
    | _ => none

/-- The loop over the conditions of a list, up to its closing parenthesis. -/
def parseConditions : ℕ → List Char → List Condition → Option (Option (List Condition × List Char))
  | 0, _, _ => none
  | fuel + 1, s, conditions => do
    let (token, rest) ← lex s
    if token = .char ')' then return if conditions = [] then none else some (conditions, rest)
    else match ← parseCondition s with
      | none => return none
      | some (condition, rest) => parseConditions fuel rest (conditions ++ [condition])

def parseList (s : List Char) : Option (Option (IfList × List Char)) := do
  let (token, s) ← lex s
  if token ≠ .char '(' then return none
  else
    let result ← parseConditions (s.length + 1) s []
    return result.map fun p => (⟨[], p.1⟩, p.2)

/-- The loop over lists without tags. -/
def parseUntagged : ℕ → List Char → List IfList → Option (Option (List IfList))
  | 0, _, _ => none
  | fuel + 1, s, lists => do
    match ← parseList s with
    | none => return none
    | some (list, rest) =>
      if rest = [] then return some (lists ++ [list])
      else parseUntagged fuel rest (lists ++ [list])

/-- The loop over tags and their lists; `count` lists came after the last tag. -/
def parseTagged : ℕ → List Char → List Char → ℕ → Bool → List IfList →
    Option (Option (List IfList))
  | 0, _, _, _, _, _ => none
  | fuel + 1, s, tag, count, first, lists => do
    let (token, rest) ← lex s
    match token with
    | .angle text =>
      if !first && count == 0 then return none
      else parseTagged fuel rest text 0 false lists
    | .char '(' =>
      match ← parseList s with
      | none => return none
      | some (list, rest) =>
        let lists := lists ++ [{ list with resourceTag := tag }]
        if rest = [] then return some lists
        else parseTagged fuel rest tag (count + 1) false lists
    | _ => return none

/-- `parseIfHeader`: no-tag or tagged lists. -/
def parseIf (header : List Char) : Option (Option (List IfList)) := do
  let s := Utf8.trim header
  match (← lex s).1 with
  | .char '(' => parseUntagged (s.length + 1) s []
  | .angle _ => parseTagged (s.length + 1) s [] 0 true []
  | _ => return none

/-! ### The grammar -/

/-- The text of a token. -/
inductive Token.Spells : Token → List Char → Prop
  | not : Spells .not "Not".toList
  | str {word : List Char} : word ≠ [] → word ≠ "Not".toList → (∀ c ∈ word, isDelimiter c = false) →
      Spells (.str word) word
  | angle {text : List Char} : '>' ∉ text → Spells (.angle text) ('<' :: text ++ ['>'])
  | square {text : List Char} : ']' ∉ text → Spells (.square text) ('[' :: text ++ [']'])
  | char {c : Char} : c ∈ ['(', ')', '>', ']'] → Spells (.char c) [c]

/-- A word goes on to the next delimiter. -/
def Token.Ends : Token → List Char → Prop
  | .not, rest | .str _, rest => ∀ c ∈ rest.head?, isDelimiter c = true
  | _, _ => True

/-- A text is blanks, a token and a rest. -/
def Begins (token : Token) (s rest : List Char) : Prop :=
  ∃ blanks text, (∀ c ∈ blanks, isBlank c = true) ∧ token.Spells text ∧ token.Ends rest ∧
    s = blanks ++ (text ++ rest)

/-- A text is tokens, with blanks before them, and a rest. -/
inductive Reads : List Char → List Token → List Char → Prop
  | nil {s : List Char} : Reads s [] s
  | cons {s rest last : List Char} {token : Token} {tokens : List Token} : Begins token s rest →
      Reads rest tokens last → Reads s (token :: tokens) last

/-- A state token is a coded URL or, where words are allowed, a word. -/
inductive StateToken (words : Bool) : Token → List Char → Prop
  | angle {text : List Char} : StateToken words (.angle text) text
  | word {text : List Char} : words = true → StateToken words (.str text) text

/-- A state token or an entity tag, perhaps after `Not`. -/
inductive SpellsCondition (words : Bool) : Condition → List Token → Prop
  | token {token : Token} {text : List Char} : StateToken words token text →
      SpellsCondition words ⟨false, text, []⟩ [token]
  | etag {text : List Char} : SpellsCondition words ⟨false, [], text⟩ [.square text]
  | notToken {token : Token} {text : List Char} : StateToken words token text →
      SpellsCondition words ⟨true, text, []⟩ [.not, token]
  | notEtag {text : List Char} : SpellsCondition words ⟨true, [], text⟩ [.not, .square text]

inductive SpellsConditions (words : Bool) : List Condition → List Token → Prop
  | nil : SpellsConditions words [] []
  | cons {condition : Condition} {conditions : List Condition} {first rest : List Token} :
      SpellsCondition words condition first → SpellsConditions words conditions rest →
      SpellsConditions words (condition :: conditions) (first ++ rest)

/-- Conditions between parentheses, at least one. -/
def SpellsList (words : Bool) (conditions : List Condition) (tokens : List Token) : Prop :=
  conditions ≠ [] ∧ ∃ inner, SpellsConditions words conditions inner ∧
    tokens = .char '(' :: (inner ++ [.char ')'])

/-- Lists under one tag. -/
inductive SpellsLists (words : Bool) (tag : List Char) : List IfList → List Token → Prop
  | nil : SpellsLists words tag [] []
  | cons {conditions : List Condition} {lists : List IfList} {first rest : List Token} :
      SpellsList words conditions first → SpellsLists words tag lists rest →
      SpellsLists words tag (⟨tag, conditions⟩ :: lists) (first ++ rest)

/-- Resource tags, each with the lists under it, at least one. -/
inductive SpellsTagged (words : Bool) : List IfList → List Token → Prop
  | nil : SpellsTagged words [] []
  | cons {tag : List Char} {lists others : List IfList} {first rest : List Token} : lists ≠ [] →
      SpellsLists words tag lists first → SpellsTagged words others rest →
      SpellsTagged words (lists ++ others) (.angle tag :: (first ++ rest))

/-- The lists that a header spells. -/
def Spells (words : Bool) (header : List Char) (lists : List IfList) : Prop :=
  lists ≠ [] ∧ ∃ tokens blanks, Reads (Utf8.trim header) tokens blanks ∧
    (∀ c ∈ blanks, isBlank c = true) ∧
    (SpellsLists words [] lists tokens ∨ SpellsTagged words lists tokens)

/-! ### One token -/

theorem isDelimiter_of_isBlank {c : Char} (h : isBlank c = true) : isDelimiter c = true := by
  unfold isBlank at h
  unfold isDelimiter
  rcases Bool.or_eq_true_iff.mp h with h | h
  · rw [eq_of_beq h]
    rfl
  · rw [eq_of_beq h]
    rfl

theorem isBlank_of_isDelimiter {c : Char} (h : isDelimiter c = true)
    (hc : c ∉ ['(', ')', '<', '>', '[', ']']) : isBlank c = true := by
  simp only [isDelimiter, Bool.or_eq_true, beq_iff_eq] at h
  simp only [List.mem_cons, List.not_mem_nil, or_false, not_or] at hc
  simp only [isBlank, Bool.or_eq_true, beq_iff_eq]
  tauto

/-- Blanks before a text that starts at none are dropped. -/
theorem dropWhile_blanks {blanks s : List Char} (hblanks : ∀ c ∈ blanks, isBlank c = true)
    (hs : ∀ c ∈ s.head?, isBlank c = false) : (blanks ++ s).dropWhile isBlank = s := by
  rw [List.dropWhile_append_of_pos hblanks]
  cases s with
  | nil => rfl
  | cons c s => rw [List.dropWhile_cons_of_neg (by rw [hs c rfl]; exact Bool.false_ne_true)]

theorem head_ne_blank_of_spells {token : Token} {text rest : List Char} (h : token.Spells text) :
    ∀ c ∈ (text ++ rest).head?, isBlank c = false := by
  cases h with
  | not => rintro c ⟨rfl⟩; rfl
  | @str word hne _ hword =>
    obtain ⟨d, word, rfl⟩ := List.exists_cons_of_ne_nil hne
    rintro c ⟨rfl⟩
    have hd := hword d List.mem_cons_self
    exact Bool.eq_false_iff.mpr fun hblank => by rw [isDelimiter_of_isBlank hblank] at hd; cases hd
  | angle => rintro c ⟨rfl⟩; rfl
  | square => rintro c ⟨rfl⟩; rfl
  | char hc =>
    rintro c ⟨rfl⟩
    simp only [List.mem_cons, List.not_mem_nil, or_false] at hc
    rcases hc with rfl | rfl | rfl | rfl <;> rfl

/-- A word is cut where the next delimiter stands, or at the end. -/
theorem stop_of_word {word rest : List Char} (hword : ∀ c ∈ word, isDelimiter c = false)
    (hrest : ∀ c ∈ rest.head?, isDelimiter c = true) :
    (find isDelimiter (word ++ rest)).getD (size (word ++ rest)) = size word := by
  cases rest with
  | nil =>
    rw [List.append_nil, find_eq_none.mpr hword]
    rfl
  | cons d rest =>
    rw [find_append hword (hrest d rfl)]
    rfl

/-- What `lex` does with a word. -/
theorem lex_word {blanks word rest : List Char} (hblanks : ∀ c ∈ blanks, isBlank c = true)
    (hne : word ≠ []) (hword : ∀ c ∈ word, isDelimiter c = false)
    (hrest : ∀ c ∈ rest.head?, isDelimiter c = true) :
    lex (blanks ++ (word ++ rest)) =
      some (if word = "Not".toList then (.not, rest) else (.str word, rest)) := by
  have hhead : ∀ c ∈ (word ++ rest).head?, isBlank c = false := by
    obtain ⟨d, word, rfl⟩ := List.exists_cons_of_ne_nil hne
    rintro c ⟨rfl⟩
    have hd := hword d List.mem_cons_self
    exact Bool.eq_false_iff.mpr fun hblank => by rw [isDelimiter_of_isBlank hblank] at hd; cases hd
  have hstop := stop_of_word hword hrest
  unfold lex
  simp only
  rw [dropWhile_blanks hblanks hhead, if_neg (List.append_ne_nil_of_left_ne_nil hne rest), hstop,
    if_pos (mt size_eq_zero.mp hne), splitAt_append, Option.bind_eq_bind, Option.bind_some]
  split <;> rfl

/-- At a delimiter nothing is cut off. -/
theorem stop_of_delimiter {d : Char} (hd : isDelimiter d = true) (rest : List Char) :
    ((find isDelimiter (d :: rest)).getD (size (d :: rest))) = 0 := by
  rw [find, if_pos hd]
  rfl

theorem lex_char {blanks rest : List Char} {c : Char} (hblanks : ∀ c ∈ blanks, isBlank c = true)
    (hc : c ∈ ['(', ')', '>', ']']) : lex (blanks ++ (c :: rest)) = some (.char c, rest) := by
  simp only [List.mem_cons, List.not_mem_nil, or_false] at hc
  have hblank : isBlank c = false := by rcases hc with rfl | rfl | rfl | rfl <;> rfl
  have hdelimiter : isDelimiter c = true := by rcases hc with rfl | rfl | rfl | rfl <;> rfl
  have hopen : ¬(c = '<' ∨ c = '[') := by rcases hc with rfl | rfl | rfl | rfl <;> decide
  have hslice : sliceFrom (c :: rest) 1 = some rest := by
    have hone : size [c] = 1 := by rcases hc with rfl | rfl | rfl | rfl <;> rfl
    rw [← hone]
    exact sliceFrom_append [c] rest
  unfold lex
  simp only
  rw [dropWhile_blanks hblanks (by rintro d ⟨rfl⟩; exact hblank), if_neg (List.cons_ne_nil c rest),
    stop_of_delimiter hdelimiter, if_neg (not_not.mpr rfl)]
  simp only
  rw [if_neg hopen, hslice]
  rfl

/-- The closing bracket of an opening one. -/
def closing (c : Char) : Char := if c = '<' then '>' else ']'

/-- A text between brackets. -/
def bracketed (c : Char) (text : List Char) : Token :=
  if c = '<' then .angle text else .square text

theorem lex_bracket {blanks inside : List Char} {c : Char} (hblanks : ∀ c ∈ blanks, isBlank c = true)
    (hc : c = '<' ∨ c = '[') :
    lex (blanks ++ (c :: inside)) = match find (· == closing c) inside with
      | some stop => do
        let inner ← slice (c :: inside) 1 (stop + 1)
        let rest ← sliceFrom (c :: inside) (stop + 2)
        return (bracketed c inner, rest)
      | none => some (.error, []) := by
  have hblank : isBlank c = false := by rcases hc with rfl | rfl <;> rfl
  have hdelimiter : isDelimiter c = true := by rcases hc with rfl | rfl <;> rfl
  have hslice : sliceFrom (c :: inside) 1 = some inside := by
    have hone : size [c] = 1 := by rcases hc with rfl | rfl <;> rfl
    rw [← hone]
    exact sliceFrom_append [c] inside
  unfold lex
  simp only
  rw [dropWhile_blanks hblanks (by rintro d ⟨rfl⟩; exact hblank), if_neg (List.cons_ne_nil c inside),
    stop_of_delimiter hdelimiter, if_neg (not_not.mpr rfl)]
  simp only
  rw [if_pos hc, hslice, Option.bind_eq_bind, Option.bind_some]
  rfl

theorem lex_closed {blanks text rest : List Char} {c : Char} (hblanks : ∀ c ∈ blanks, isBlank c = true)
    (hc : c = '<' ∨ c = '[') (htext : closing c ∉ text) :
    lex (blanks ++ (c :: (text ++ closing c :: rest))) = some (bracketed c text, rest) := by
  have hone : c.utf8Size = 1 := by rcases hc with rfl | rfl <;> rfl
  have hclose : (closing c).utf8Size = 1 := by rcases hc with rfl | rfl <;> rfl
  have hfind : find (· == closing c) (text ++ closing c :: rest) = some (size text) :=
    find_append (fun d hd => beq_eq_false_iff_ne.mpr (ne_of_mem_of_not_mem hd htext))
      (beq_self_eq_true _) rest
  have hinner : slice (c :: (text ++ closing c :: rest)) 1 (size text + 1) = some text := by
    have hcut := slice_append [c] text (closing c :: rest)
    rw [size_append, size_cons, size_nil, hone, Nat.add_zero, Nat.add_comm 1 (size text)] at hcut
    exact hcut
  have hrest : sliceFrom (c :: (text ++ closing c :: rest)) (size text + 2) = some rest := by
    have hcut := sliceFrom_append (c :: (text ++ [closing c])) rest
    have hsize : size (c :: (text ++ [closing c])) = size text + 2 := by
      rw [size_cons, size_append, size_cons, size_nil, hone, hclose]
      omega
    rw [hsize, List.cons_append, List.append_assoc, List.singleton_append] at hcut
    exact hcut
  rw [lex_bracket hblanks hc, hfind]
  simp only
  rw [hinner, Option.bind_eq_bind, Option.bind_some, hrest]
  rfl

/-- A text that begins with a token is cut behind it. -/
theorem lex_of_begins {token : Token} {s rest : List Char} (h : Begins token s rest) :
    lex s = some (token, rest) := by
  obtain ⟨blanks, text, hblanks, hspells, hends, rfl⟩ := h
  cases hspells with
  | not =>
    have hword : ∀ c ∈ "Not".toList, isDelimiter c = false :=
      List.all_iff_forall_prop.mp (by decide)
    exact lex_word hblanks (by decide) hword hends
  | str hne hnot hword =>
    rw [lex_word hblanks hne hword hends, if_neg hnot]
  | angle htext =>
    rw [List.append_assoc]
    exact lex_closed hblanks (Or.inl rfl) htext
  | square htext =>
    rw [List.append_assoc]
    exact lex_closed hblanks (Or.inr rfl) htext
  | char hc => exact lex_char hblanks hc

/-- A text is blank, begins with a token, or opens a bracket that it does not close. -/
theorem lex_cases (s : List Char) :
    (∃ token rest, Begins token s rest) ∨
      (lex s = some (.eof, []) ∧ ∀ c ∈ s, isBlank c = true) ∨ lex s = some (.error, []) := by
  have hsplit : s = s.takeWhile isBlank ++ s.dropWhile isBlank := List.takeWhile_append_dropWhile.symm
  have hblanks : ∀ c ∈ s.takeWhile isBlank, isBlank c = true := fun c hc =>
    List.mem_takeWhile_imp hc
  generalize s.takeWhile isBlank = blanks at hsplit hblanks
  have hhead : ∀ c ∈ (s.dropWhile isBlank).head?, isBlank c = false := by
    intro c hc
    have hnot := List.head?_dropWhile_not isBlank s
    rw [Option.mem_def.mp hc] at hnot
    exact hnot
  generalize s.dropWhile isBlank = t at hsplit hhead
  subst hsplit
  cases t with
  | nil =>
    right; left
    rw [List.append_nil]
    refine ⟨?_, hblanks⟩
    have hdrop := dropWhile_blanks (s := []) hblanks fun c hc => by cases hc
    rw [List.append_nil] at hdrop
    unfold lex
    simp only
    rw [hdrop, if_pos rfl]
  | cons d t =>
    have hd : isBlank d = false := hhead d rfl
    by_cases hdelimiter : isDelimiter d = true
    · by_cases hopen : d = '<' ∨ d = '['
      · cases hfind : find (· == closing d) t with
        | none =>
          right; right
          rw [lex_bracket hblanks hopen, hfind]
        | some stop =>
          left
          obtain ⟨text, e, rest, rfl, -, htext, he⟩ := exists_of_find hfind
          obtain rfl := eq_of_beq he
          have hnot : closing d ∉ text := fun hmem => by
            have hne := htext _ hmem
            rw [beq_self_eq_true] at hne
            cases hne
          rcases hopen with rfl | rfl
          · exact ⟨.angle text, rest, blanks, _, hblanks, .angle hnot, trivial, by
              rw [List.append_assoc]; rfl⟩
          · exact ⟨.square text, rest, blanks, _, hblanks, .square hnot, trivial, by
              rw [List.append_assoc]; rfl⟩
      · left
        have hmem : d ∈ ['(', ')', '>', ']'] := by
          by_contra hnot
          simp only [List.mem_cons, List.not_mem_nil, or_false, not_or] at hnot
          rw [isBlank_of_isDelimiter hdelimiter] at hd
          · cases hd
          · simp only [List.mem_cons, List.not_mem_nil, or_false, not_or]
            exact ⟨hnot.1, hnot.2.1, (not_or.mp hopen).1, hnot.2.2.1, (not_or.mp hopen).2, hnot.2.2.2⟩
        exact ⟨.char d, t, blanks, [d], hblanks, .char hmem, trivial, rfl⟩
    · left
      rw [Bool.not_eq_true] at hdelimiter
      have hword : ∀ c ∈ (d :: t).takeWhile (fun c => !isDelimiter c), isDelimiter c = false :=
        fun c hc => by simpa using List.mem_takeWhile_imp hc
      have hne : (d :: t).takeWhile (fun c => !isDelimiter c) ≠ [] := by
        rw [List.takeWhile_cons_of_pos (by rw [hdelimiter]; rfl)]
        exact List.cons_ne_nil _ _
      have hrest : ∀ c ∈ ((d :: t).dropWhile (fun c => !isDelimiter c)).head?, isDelimiter c = true := by
        intro c hc
        have hnot := List.head?_dropWhile_not (fun c => !isDelimiter c) (d :: t)
        rw [Option.mem_def.mp hc] at hnot
        simpa using hnot
      have hcut : d :: t = (d :: t).takeWhile (fun c => !isDelimiter c) ++
          (d :: t).dropWhile (fun c => !isDelimiter c) := List.takeWhile_append_dropWhile.symm
      by_cases hnot : (d :: t).takeWhile (fun c => !isDelimiter c) = "Not".toList
      · exact ⟨.not, _, blanks, _, hblanks, .not, hrest, by rw [← hnot, ← hcut]⟩
      · exact ⟨.str _, _, blanks, _, hblanks, .str hne hnot hword, hrest, by rw [← hcut]⟩

theorem lex_isSome (s : List Char) : ∃ token rest, lex s = some (token, rest) := by
  rcases lex_cases s with ⟨token, rest, h⟩ | ⟨h, -⟩ | h
  · exact ⟨token, rest, lex_of_begins h⟩
  · exact ⟨.eof, [], h⟩
  · exact ⟨.error, [], h⟩

/-- What `lex` cuts off, but for the end and an error, is a token of the grammar. -/
theorem begins_of_lex {token : Token} {s rest : List Char} (h : lex s = some (token, rest))
    (heof : token ≠ .eof) (herror : token ≠ .error) : Begins token s rest := by
  rcases lex_cases s with ⟨token', rest', hbegins⟩ | ⟨hlex, -⟩ | hlex
  · obtain ⟨rfl, rfl⟩ := Prod.mk.inj (Option.some.inj ((lex_of_begins hbegins).symm.trans h))
    exact hbegins
  · exact absurd (Prod.mk.inj (Option.some.inj (hlex.symm.trans h))).1.symm heof
  · exact absurd (Prod.mk.inj (Option.some.inj (hlex.symm.trans h))).1.symm herror

/-- A token takes something of its text. -/
theorem Begins.length_lt {token : Token} {s rest : List Char} (h : Begins token s rest) :
    rest.length < s.length := by
  obtain ⟨blanks, text, -, hspells, -, rfl⟩ := h
  have hpos : 0 < text.length := by
    cases hspells with
    | str hne => exact List.length_pos_of_ne_nil hne
    | _ => exact Nat.succ_pos _
  rw [List.length_append, List.length_append]
  omega

theorem Begins.unique {token token' : Token} {s rest rest' : List Char} (h : Begins token s rest)
    (h' : Begins token' s rest') : token = token' ∧ rest = rest' :=
  Prod.mk.inj (Option.some.inj ((lex_of_begins h).symm.trans (lex_of_begins h')))

/-! ### Several tokens -/

theorem Reads.append {s mid rest : List Char} {first last : List Token} (h : Reads s first mid)
    (h' : Reads mid last rest) : Reads s (first ++ last) rest := by
  induction h with
  | nil => exact h'
  | cons hbegins _ ih => exact Reads.cons hbegins (ih h')

theorem Reads.split {s rest : List Char} {first last : List Token} (h : Reads s (first ++ last) rest) :
    ∃ mid, Reads s first mid ∧ Reads mid last rest := by
  induction first generalizing s with
  | nil => exact ⟨s, Reads.nil, h⟩
  | cons token first ih =>
    cases h with
    | cons hbegins hreads =>
      obtain ⟨mid, hfirst, hlast⟩ := ih hreads
      exact ⟨mid, Reads.cons hbegins hfirst, hlast⟩

theorem Begins.reads {token : Token} {s rest : List Char} (h : Begins token s rest) :
    Reads s [token] rest := Reads.cons h Reads.nil

theorem reads_singleton {token : Token} {s rest : List Char} :
    Reads s [token] rest ↔ Begins token s rest := by
  constructor
  · intro h
    cases h with
    | cons hbegins hnil =>
      cases hnil
      exact hbegins
  · exact Begins.reads

theorem Reads.length_le {s rest : List Char} {tokens : List Token} (h : Reads s tokens rest) :
    rest.length + tokens.length ≤ s.length := by
  induction h with
  | nil => exact le_rfl
  | cons hbegins _ ih =>
    have hlt := hbegins.length_lt
    rw [List.length_cons]
    omega

/-! ### A condition -/

/-- A first token and the next one, or the first alone. -/
theorem parseCondition_ok {s rest : List Char} {condition : Condition} :
    parseCondition s = some (some (condition, rest)) ↔
      ∃ tokens, SpellsCondition true condition tokens ∧ Reads s tokens rest := by
  constructor
  · intro h
    obtain ⟨token, mid, hlex⟩ := lex_isSome s
    unfold parseCondition at h
    rw [hlex, Option.bind_eq_bind, Option.bind_some] at h
    by_cases hnot : token = .not
    · subst hnot
      obtain ⟨next, last, hnext⟩ := lex_isSome mid
      have hfirst := begins_of_lex hlex (by decide) (by decide)
      simp only [beq_self_eq_true, if_true, hnext, Option.bind_some] at h
      cases next with
      | str text =>
        cases h
        have hlast := begins_of_lex hnext (fun h => nomatch h) (fun h => nomatch h)
        exact ⟨_, .notToken (.word rfl), .cons hfirst hlast.reads⟩
      | angle text =>
        cases h
        have hlast := begins_of_lex hnext (fun h => nomatch h) (fun h => nomatch h)
        exact ⟨_, .notToken .angle, .cons hfirst hlast.reads⟩
      | square text =>
        cases h
        have hlast := begins_of_lex hnext (fun h => nomatch h) (fun h => nomatch h)
        exact ⟨_, .notEtag, .cons hfirst hlast.reads⟩
      | _ => cases h
    · have hfalse : (token == Token.not) = false := beq_eq_false_iff_ne.mpr hnot
      simp only [hfalse, Bool.false_eq_true, if_false, Option.bind_some] at h
      cases token with
      | str text =>
        cases h
        have hfirst := begins_of_lex hlex (fun h => nomatch h) (fun h => nomatch h)
        exact ⟨_, .token (.word rfl), hfirst.reads⟩
      | angle text =>
        cases h
        have hfirst := begins_of_lex hlex (fun h => nomatch h) (fun h => nomatch h)
        exact ⟨_, .token .angle, hfirst.reads⟩
      | square text =>
        cases h
        have hfirst := begins_of_lex hlex (fun h => nomatch h) (fun h => nomatch h)
        exact ⟨_, .etag, hfirst.reads⟩
      | _ => cases h
  · rintro ⟨tokens, hspells, hreads⟩
    unfold parseCondition
    cases hspells with
    | token hstate =>
      have hlex := lex_of_begins (reads_singleton.mp hreads)
      cases hstate <;> rw [hlex] <;> rfl
    | etag =>
      rw [lex_of_begins (reads_singleton.mp hreads)]
      rfl
    | notToken hstate =>
      cases hreads with
      | cons hfirst hlast =>
        have hlex := lex_of_begins (reads_singleton.mp hlast)
        rw [lex_of_begins hfirst, Option.bind_eq_bind, Option.bind_some]
        cases hstate <;> simp only [beq_self_eq_true, if_true, hlex] <;> rfl
    | notEtag =>
      cases hreads with
      | cons hfirst hlast =>
        have hlex := lex_of_begins (reads_singleton.mp hlast)
        rw [lex_of_begins hfirst, Option.bind_eq_bind, Option.bind_some]
        simp only [beq_self_eq_true, if_true, hlex]
        rfl

theorem parseCondition_isSome (s : List Char) : ∃ result, parseCondition s = some result := by
  obtain ⟨token, rest, hlex⟩ := lex_isSome s
  obtain ⟨next, last, hnext⟩ := lex_isSome rest
  unfold parseCondition
  rw [hlex, Option.bind_eq_bind, Option.bind_some]
  by_cases hnot : (token == Token.not) = true
  · simp only [hnot, if_true, hnext]
    exact ⟨_, rfl⟩
  · simp only [hnot]
    exact ⟨_, rfl⟩

/-- A condition starts at no parenthesis. -/
theorem SpellsCondition.head {words : Bool} {condition : Condition} {tokens : List Token}
    (h : SpellsCondition words condition tokens) :
    ∃ token rest, tokens = token :: rest ∧ ∀ c, token ≠ .char c := by
  cases h with
  | token hstate => cases hstate <;> exact ⟨_, _, rfl, fun c h => nomatch h⟩
  | etag => exact ⟨_, _, rfl, fun c h => nomatch h⟩
  | notToken _ => exact ⟨_, _, rfl, fun c h => nomatch h⟩
  | notEtag => exact ⟨_, _, rfl, fun c h => nomatch h⟩

theorem parseCondition_length {s rest : List Char} {condition : Condition}
    (h : parseCondition s = some (some (condition, rest))) : rest.length < s.length := by
  obtain ⟨tokens, hspells, hreads⟩ := parseCondition_ok.mp h
  obtain ⟨token, others, rfl, -⟩ := hspells.head
  have hle := hreads.length_le
  rw [List.length_cons] at hle
  omega

/-! ### A list -/

/-- A turn of the loop. -/
theorem parseConditions_succ {s rest : List Char} {token : Token}
    {result : Option (Condition × List Char)} (fuel : ℕ) (found : List Condition)
    (hlex : lex s = some (token, rest)) (hparse : parseCondition s = some result) :
    parseConditions (fuel + 1) s found =
      if token = .char ')' then some (if found = [] then none else some (found, rest))
      else result.elim (some none) fun p => parseConditions fuel p.2 (found ++ [p.1]) := by
  rw [parseConditions, hlex, hparse]
  cases result <;> rfl

/-- The loop ends before its fuel does. -/
theorem parseConditions_isSome {fuel : ℕ} {s : List Char} (h : s.length < fuel)
    (conditions : List Condition) : ∃ result, parseConditions fuel s conditions = some result := by
  induction fuel generalizing s conditions with
  | zero => exact absurd h (Nat.not_lt_zero _)
  | succ fuel ih =>
    obtain ⟨token, rest, hlex⟩ := lex_isSome s
    obtain ⟨result, hresult⟩ := parseCondition_isSome s
    rw [parseConditions_succ fuel conditions hlex hresult]
    split
    · exact ⟨_, rfl⟩
    cases result with
    | none => exact ⟨_, rfl⟩
    | some p =>
      obtain ⟨condition, rest⟩ := p
      have hlt := parseCondition_length hresult
      have hfit : rest.length < fuel := by omega
      exact ih hfit _

theorem parseConditions_sound {fuel : ℕ} {s rest : List Char} {found conditions : List Condition}
    (h : parseConditions fuel s found = some (some (conditions, rest))) :
    conditions ≠ [] ∧ ∃ more tokens, conditions = found ++ more ∧
      SpellsConditions true more tokens ∧ Reads s (tokens ++ [.char ')']) rest := by
  induction fuel generalizing s found with
  | zero => cases h
  | succ fuel ih =>
    obtain ⟨token, next, hlex⟩ := lex_isSome s
    obtain ⟨result, hresult⟩ := parseCondition_isSome s
    rw [parseConditions_succ fuel found hlex hresult] at h
    split at h
    · next hclose =>
      subst hclose
      by_cases hnil : found = []
      · rw [if_pos hnil] at h
        cases h
      · rw [if_neg hnil] at h
        cases h
        have hbegins := begins_of_lex hlex (by decide) (by decide)
        exact ⟨hnil, [], [], (List.append_nil _).symm, .nil, hbegins.reads⟩
    cases result with
    | none => cases h
    | some p =>
      obtain ⟨condition, mid⟩ := p
      obtain ⟨hne, more, tokens, rfl, hspells, hreads⟩ := ih h
      obtain ⟨first, hfirst, hmid⟩ := parseCondition_ok.mp hresult
      refine ⟨hne, condition :: more, first ++ tokens, List.append_cons .. ▸ rfl, .cons hfirst hspells, ?_⟩
      rw [List.append_assoc]
      exact hmid.append hreads

theorem parseConditions_complete {fuel : ℕ} {s rest : List Char} {found more : List Condition}
    {tokens : List Token} (hfuel : s.length < fuel) (hspells : SpellsConditions true more tokens)
    (hreads : Reads s (tokens ++ [.char ')']) rest) (hne : found ++ more ≠ []) :
    parseConditions fuel s found = some (some (found ++ more, rest)) := by
  induction hspells generalizing fuel s found with
  | nil =>
    obtain ⟨fuel, rfl⟩ := Nat.exists_eq_succ_of_ne_zero (Nat.ne_of_gt (Nat.zero_lt_of_lt hfuel))
    obtain ⟨result, hresult⟩ := parseCondition_isSome s
    have hlex := lex_of_begins (reads_singleton.mp hreads)
    rw [List.append_nil] at hne ⊢
    rw [parseConditions_succ fuel found hlex hresult, if_pos rfl, if_neg hne]
  | @cons condition conditions first others hcondition _ ih =>
    obtain ⟨fuel, rfl⟩ := Nat.exists_eq_succ_of_ne_zero (Nat.ne_of_gt (Nat.zero_lt_of_lt hfuel))
    rw [List.append_assoc] at hreads
    obtain ⟨mid, hfirst, hlast⟩ := hreads.split
    have hparse := parseCondition_ok.mpr ⟨first, hcondition, hfirst⟩
    have hlt := parseCondition_length hparse
    obtain ⟨token, tail, rfl, hchar⟩ := hcondition.head
    have hlex : ∃ next, lex s = some (token, next) := by
      cases hfirst with
      | cons hbegins _ => exact ⟨_, lex_of_begins hbegins⟩
    obtain ⟨next, hlex⟩ := hlex
    rw [parseConditions_succ fuel found hlex hparse, if_neg (hchar ')'), Option.elim_some]
    rw [ih (by omega) hlast (by simp), List.append_assoc, List.singleton_append]

theorem parseList_isSome (s : List Char) : ∃ result, parseList s = some result := by
  obtain ⟨token, rest, hlex⟩ := lex_isSome s
  obtain ⟨result, hresult⟩ := parseConditions_isSome (Nat.lt_succ_self rest.length) []
  unfold parseList
  rw [hlex, Option.bind_eq_bind, Option.bind_some]
  simp only
  split
  · exact ⟨_, rfl⟩
  · rw [hresult]
    exact ⟨_, rfl⟩

theorem parseList_ok {s rest : List Char} {list : IfList} :
    parseList s = some (some (list, rest)) ↔ list.resourceTag = [] ∧
      ∃ tokens, SpellsList true list.conditions tokens ∧ Reads s tokens rest := by
  constructor
  · intro h
    obtain ⟨token, next, hlex⟩ := lex_isSome s
    obtain ⟨result, hresult⟩ := parseConditions_isSome (Nat.lt_succ_self next.length) []
    unfold parseList at h
    rw [hlex, Option.bind_eq_bind, Option.bind_some] at h
    simp only at h
    split at h
    · cases h
    next hopen =>
      obtain rfl := not_not.mp hopen
      rw [hresult, Option.bind_eq_bind, Option.bind_some] at h
      cases result with
      | none => cases h
      | some p =>
        obtain ⟨conditions, last⟩ := p
        cases h
        obtain ⟨hne, more, tokens, rfl, hspells, hreads⟩ := parseConditions_sound hresult
        have hbegins := begins_of_lex hlex (by decide) (by decide)
        exact ⟨rfl, _, ⟨hne, tokens, hspells, rfl⟩, .cons hbegins hreads⟩
  · rintro ⟨htag, tokens, ⟨hne, inner, hspells, rfl⟩, hreads⟩
    obtain ⟨tag, conditions⟩ := list
    subst htag
    cases hreads with
    | @cons _ next _ _ _ hbegins hinner =>
      have hloop : parseConditions (next.length + 1) next [] = some (some (conditions, rest)) :=
        parseConditions_complete (Nat.lt_succ_self next.length) hspells hinner hne
      unfold parseList
      rw [lex_of_begins hbegins, Option.bind_eq_bind, Option.bind_some]
      simp only
      rw [if_neg (not_not.mpr rfl), hloop]
      rfl

/-- A list starts at its parenthesis. -/
theorem SpellsList.head {words : Bool} {conditions : List Condition} {tokens : List Token}
    (h : SpellsList words conditions tokens) : ∃ rest, tokens = .char '(' :: rest := by
  obtain ⟨-, inner, -, rfl⟩ := h
  exact ⟨_, rfl⟩

theorem parseList_length {s rest : List Char} {list : IfList}
    (h : parseList s = some (some (list, rest))) : rest.length < s.length := by
  obtain ⟨-, tokens, hspells, hreads⟩ := parseList_ok.mp h
  obtain ⟨others, rfl⟩ := hspells.head
  have hle := hreads.length_le
  rw [List.length_cons] at hle
  omega

/-! ### Lists without tags -/

theorem parseUntagged_succ {s : List Char} {result : Option (IfList × List Char)} (fuel : ℕ)
    (found : List IfList) (hparse : parseList s = some result) :
    parseUntagged (fuel + 1) s found = result.elim (some none) fun p =>
      if p.2 = [] then some (some (found ++ [p.1])) else parseUntagged fuel p.2 (found ++ [p.1]) := by
  rw [parseUntagged, hparse]
  cases result <;> rfl

theorem parseUntagged_isSome {fuel : ℕ} {s : List Char} (h : s.length < fuel) (found : List IfList) :
    ∃ result, parseUntagged fuel s found = some result := by
  induction fuel generalizing s found with
  | zero => exact absurd h (Nat.not_lt_zero _)
  | succ fuel ih =>
    obtain ⟨result, hresult⟩ := parseList_isSome s
    rw [parseUntagged_succ fuel found hresult]
    cases result with
    | none => exact ⟨_, rfl⟩
    | some p =>
      obtain ⟨list, rest⟩ := p
      have hlt := parseList_length hresult
      have hfit : rest.length < fuel := by omega
      rw [Option.elim_some]
      split
      · exact ⟨_, rfl⟩
      · exact ih hfit _

theorem parseUntagged_sound {fuel : ℕ} {s : List Char} {found lists : List IfList}
    (h : parseUntagged fuel s found = some (some lists)) :
    ∃ more tokens, lists = found ++ more ∧ more ≠ [] ∧ SpellsLists true [] more tokens ∧
      Reads s tokens [] := by
  induction fuel generalizing s found with
  | zero => cases h
  | succ fuel ih =>
    obtain ⟨result, hresult⟩ := parseList_isSome s
    rw [parseUntagged_succ fuel found hresult] at h
    cases result with
    | none => cases h
    | some p =>
      obtain ⟨⟨tag, conditions⟩, rest⟩ := p
      obtain ⟨htag, first, hspells, hreads⟩ := parseList_ok.mp hresult
      obtain rfl : tag = [] := htag
      rw [Option.elim_some] at h
      split at h
      · next hend =>
        obtain rfl : rest = [] := hend
        cases h
        exact ⟨_, _, rfl, List.cons_ne_nil _ _, .cons hspells .nil, by rwa [List.append_nil]⟩
      · obtain ⟨more, tokens, rfl, -, hmore, hlast⟩ := ih h
        refine ⟨_, _, List.append_assoc _ _ _, List.cons_ne_nil _ _, .cons hspells hmore, ?_⟩
        exact hreads.append hlast

theorem SpellsLists.head {words : Bool} {tag : List Char} {lists : List IfList} {tokens : List Token}
    (h : SpellsLists words tag lists tokens) (hne : lists ≠ []) :
    ∃ rest, tokens = .char '(' :: rest := by
  cases h with
  | nil => exact absurd rfl hne
  | cons hlist _ =>
    obtain ⟨rest, rfl⟩ := hlist.head
    exact ⟨_, rfl⟩

/-- Where tokens are left to read there is text. -/
theorem Reads.ne_nil {s rest : List Char} {token : Token} {tokens : List Token}
    (h : Reads s (token :: tokens) rest) : s ≠ [] := by
  rintro rfl
  have hle := h.length_le
  rw [List.length_cons, List.length_nil] at hle
  omega

theorem parseUntagged_complete {fuel : ℕ} {s : List Char} {found more : List IfList}
    {tokens : List Token} (hfuel : s.length < fuel) (hspells : SpellsLists true [] more tokens)
    (hne : more ≠ []) (hreads : Reads s tokens []) :
    parseUntagged fuel s found = some (some (found ++ more)) := by
  induction hspells generalizing fuel s found with
  | nil => exact absurd rfl hne
  | @cons conditions lists first others hlist hlists ih =>
    obtain ⟨fuel, rfl⟩ := Nat.exists_eq_succ_of_ne_zero (Nat.ne_of_gt (Nat.zero_lt_of_lt hfuel))
    obtain ⟨mid, hfirst, hlast⟩ := hreads.split
    have hparse : parseList s = some (some (⟨[], conditions⟩, mid)) :=
      parseList_ok.mpr ⟨rfl, first, hlist, hfirst⟩
    have hlt := parseList_length hparse
    have hfit : mid.length < fuel := by omega
    rw [parseUntagged_succ fuel found hparse, Option.elim_some]
    cases lists with
    | nil =>
      cases hlists
      cases hlast
      exact if_pos rfl
    | cons list lists =>
      obtain ⟨rest, rfl⟩ := hlists.head (List.cons_ne_nil _ _)
      rw [if_neg hlast.ne_nil, ih hfit (List.cons_ne_nil _ _) hlast, List.append_assoc]
      rfl

/-! ### Tagged lists -/

/-- What may still come under a tag; another tag only after a list. -/
inductive TaggedRest : List Char → Bool → List IfList → List Token → Prop
  | tag {tag text : List Char} {lists : List IfList} {tokens : List Token} :
      TaggedRest text false lists tokens → TaggedRest tag true lists (.angle text :: tokens)
  | last {tag : List Char} {opened : Bool} {conditions : List Condition} {tokens : List Token} :
      SpellsList true conditions tokens → TaggedRest tag opened [⟨tag, conditions⟩] tokens
  | list {tag : List Char} {opened : Bool} {conditions : List Condition} {lists : List IfList}
      {first rest : List Token} : SpellsList true conditions first → TaggedRest tag true lists rest →
      TaggedRest tag opened (⟨tag, conditions⟩ :: lists) (first ++ rest)

theorem parseTagged_angle {s rest text : List Char} (hlex : lex s = some (.angle text, rest)) (fuel : ℕ)
    (tag : List Char) (count : ℕ) (first : Bool) (found : List IfList) :
    parseTagged (fuel + 1) s tag count first found =
      if !first && count == 0 then some none else parseTagged fuel rest text 0 false found := by
  rw [parseTagged, hlex]
  rfl

theorem parseTagged_list {s rest : List Char} {result : Option (IfList × List Char)}
    (hlex : lex s = some (.char '(', rest)) (hparse : parseList s = some result) (fuel : ℕ)
    (tag : List Char) (count : ℕ) (first : Bool) (found : List IfList) :
    parseTagged (fuel + 1) s tag count first found = result.elim (some none) fun p =>
      if p.2 = [] then some (some (found ++ [{ p.1 with resourceTag := tag }]))
      else parseTagged fuel p.2 tag (count + 1) false (found ++ [{ p.1 with resourceTag := tag }]) := by
  rw [parseTagged, hlex]
  simp only [Option.bind_eq_bind, Option.bind_some, hparse]
  cases result <;> rfl

theorem parseTagged_other {s rest : List Char} {token : Token} (hlex : lex s = some (token, rest))
    (hangle : ∀ text, token ≠ .angle text) (hchar : token ≠ .char '(') (fuel : ℕ) (tag : List Char)
    (count : ℕ) (first : Bool) (found : List IfList) :
    parseTagged (fuel + 1) s tag count first found = some none := by
  rw [parseTagged, hlex]
  simp only [Option.bind_eq_bind, Option.bind_some]
  rfl

theorem parseTagged_isSome {fuel : ℕ} {s : List Char} (h : s.length < fuel) (tag : List Char)
    (count : ℕ) (first : Bool) (found : List IfList) :
    ∃ result, parseTagged fuel s tag count first found = some result := by
  induction fuel generalizing s tag count first found with
  | zero => exact absurd h (Nat.not_lt_zero _)
  | succ fuel ih =>
    obtain ⟨token, rest, hlex⟩ := lex_isSome s
    by_cases hangle : ∃ text, token = .angle text
    · obtain ⟨text, rfl⟩ := hangle
      have hlt := (begins_of_lex hlex (fun h => nomatch h) fun h => nomatch h).length_lt
      have hfit : rest.length < fuel := by omega
      rw [parseTagged_angle hlex]
      split
      · exact ⟨_, rfl⟩
      · exact ih hfit _ _ _ _
    by_cases hchar : token = .char '('
    · subst hchar
      obtain ⟨result, hresult⟩ := parseList_isSome s
      rw [parseTagged_list hlex hresult]
      cases result with
      | none => exact ⟨_, rfl⟩
      | some p =>
        obtain ⟨list, last⟩ := p
        have hlt := parseList_length hresult
        have hfit : last.length < fuel := by omega
        rw [Option.elim_some]
        split
        · exact ⟨_, rfl⟩
        · exact ih hfit _ _ _ _
    · rw [parseTagged_other hlex (fun text h => hangle ⟨text, h⟩) hchar]
      exact ⟨_, rfl⟩

theorem parseTagged_sound {fuel : ℕ} {s tag : List Char} {count : ℕ} {first : Bool}
    {found lists : List IfList} (h : parseTagged fuel s tag count first found = some (some lists)) :
    ∃ more tokens, lists = found ++ more ∧ TaggedRest tag (first || count != 0) more tokens ∧
      Reads s tokens [] := by
  induction fuel generalizing s tag count first found with
  | zero => cases h
  | succ fuel ih =>
    obtain ⟨token, rest, hlex⟩ := lex_isSome s
    by_cases hangle : ∃ text, token = .angle text
    · obtain ⟨text, rfl⟩ := hangle
      have hbegins := begins_of_lex hlex (fun h => nomatch h) fun h => nomatch h
      rw [parseTagged_angle hlex] at h
      split at h
      · cases h
      next hopen =>
        obtain ⟨more, tokens, rfl, hspells, hreads⟩ := ih h
        have hopened : (first || count != 0) = true := by
          cases first with
          | true => rfl
          | false =>
            rw [Bool.not_false, Bool.true_and, beq_iff_eq] at hopen
            exact bne_iff_ne.mpr hopen
        rw [hopened]
        exact ⟨more, _, rfl, .tag hspells, .cons hbegins hreads⟩
    by_cases hchar : token = .char '('
    · subst hchar
      obtain ⟨result, hresult⟩ := parseList_isSome s
      rw [parseTagged_list hlex hresult] at h
      cases result with
      | none => cases h
      | some p =>
        obtain ⟨⟨empty, conditions⟩, last⟩ := p
        obtain ⟨-, tokens, hspells, hreads⟩ := parseList_ok.mp hresult
        rw [Option.elim_some] at h
        split at h
        · next hend =>
          obtain rfl : last = [] := hend
          cases h
          exact ⟨_, tokens, rfl, .last hspells, hreads⟩
        · obtain ⟨more, others, rfl, hmore, hlast⟩ := ih h
          refine ⟨_, _, List.append_assoc _ _ _, .list hspells hmore, ?_⟩
          exact hreads.append hlast
    · rw [parseTagged_other hlex (fun text h => hangle ⟨text, h⟩) hchar] at h
      cases h

theorem TaggedRest.ne_nil {tag : List Char} {opened : Bool} {lists : List IfList}
    {tokens : List Token} (h : TaggedRest tag opened lists tokens) :
    ∃ token rest, tokens = token :: rest := by
  cases h with
  | tag _ => exact ⟨_, _, rfl⟩
  | last hlist =>
    obtain ⟨rest, rfl⟩ := hlist.head
    exact ⟨_, _, rfl⟩
  | list hlist _ =>
    obtain ⟨rest, rfl⟩ := hlist.head
    exact ⟨_, _, rfl⟩

theorem TaggedRest.lists_ne_nil {tag : List Char} {opened : Bool} {lists : List IfList}
    {tokens : List Token} (h : TaggedRest tag opened lists tokens) : lists ≠ [] := by
  induction h with
  | tag _ ih => exact ih
  | last _ => exact List.cons_ne_nil _ _
  | list _ _ _ => exact List.cons_ne_nil _ _

/-- A list read where a parenthesis stands. -/
theorem parseList_of_spells {s mid : List Char} {conditions : List Condition} {tokens : List Token}
    (h : SpellsList true conditions tokens) (hreads : Reads s tokens mid) :
    parseList s = some (some (⟨[], conditions⟩, mid)) ∧ ∃ rest, lex s = some (.char '(', rest) := by
  refine ⟨parseList_ok.mpr ⟨rfl, tokens, h, hreads⟩, ?_⟩
  obtain ⟨rest, rfl⟩ := h.head
  cases hreads with
  | cons hbegins _ => exact ⟨_, lex_of_begins hbegins⟩

theorem parseTagged_complete {fuel : ℕ} {s tag : List Char} {count : ℕ} {first : Bool}
    {found more : List IfList} {tokens : List Token} (hfuel : s.length < fuel) {opened : Bool}
    (hspells : TaggedRest tag opened more tokens) (hopened : opened = (first || count != 0))
    (hreads : Reads s tokens []) :
    parseTagged fuel s tag count first found = some (some (found ++ more)) := by
  induction hspells generalizing fuel s count first found with
  | tag hrest ih =>
    obtain ⟨fuel, rfl⟩ := Nat.exists_eq_succ_of_ne_zero (Nat.ne_of_gt (Nat.zero_lt_of_lt hfuel))
    cases hreads with
    | @cons _ rest _ _ _ hbegins hlast =>
      have hlt := hbegins.length_lt
      have hfit : rest.length < fuel := by omega
      have hopen : (!first && count == 0) = false := by
        cases first with
        | true => rfl
        | false =>
          rw [Bool.not_false, Bool.true_and, beq_eq_false_iff_ne]
          exact bne_iff_ne.mp hopened.symm
      rw [parseTagged_angle (lex_of_begins hbegins), hopen, if_neg Bool.false_ne_true]
      exact ih hfit rfl hlast
  | last hlist =>
    obtain ⟨fuel, rfl⟩ := Nat.exists_eq_succ_of_ne_zero (Nat.ne_of_gt (Nat.zero_lt_of_lt hfuel))
    obtain ⟨hparse, rest, hlex⟩ := parseList_of_spells hlist hreads
    rw [parseTagged_list hlex hparse, Option.elim_some, if_pos rfl]
  | @list tag _ conditions lists firstTokens others hlist hrest ih =>
    obtain ⟨fuel, rfl⟩ := Nat.exists_eq_succ_of_ne_zero (Nat.ne_of_gt (Nat.zero_lt_of_lt hfuel))
    obtain ⟨mid, hfirst, hlast⟩ := hreads.split
    obtain ⟨hparse, rest, hlex⟩ := parseList_of_spells hlist hfirst
    have hlt := parseList_length hparse
    have hfit : mid.length < fuel := by omega
    obtain ⟨token, tail, rfl⟩ := hrest.ne_nil
    rw [parseTagged_list hlex hparse, Option.elim_some, if_neg hlast.ne_nil,
      ih hfit (show true = (false || count + 1 != 0) from rfl) hlast, List.append_assoc]
    rfl

/-- What the loop reads under a tag is lists of that tag and then tagged lists. -/
theorem TaggedRest.spells {tag : List Char} {opened : Bool} {lists : List IfList}
    {tokens : List Token} (h : TaggedRest tag opened lists tokens) :
    ∃ under others first rest, SpellsLists true tag under first ∧ SpellsTagged true others rest ∧
      lists = under ++ others ∧ tokens = first ++ rest ∧ (opened = false → under ≠ []) := by
  induction h with
  | tag _ ih =>
    obtain ⟨under, others, first, rest, hunder, hothers, rfl, rfl, hne⟩ := ih
    exact ⟨[], _, [], _, .nil, .cons (hne rfl) hunder hothers, rfl, rfl, fun h => nomatch h⟩
  | last hlist =>
    exact ⟨_, [], _, [], .cons hlist .nil, .nil, rfl, by rw [List.append_nil, List.append_nil],
      fun _ => List.cons_ne_nil _ _⟩
  | list hlist _ ih =>
    obtain ⟨under, others, first, rest, hunder, hothers, rfl, rfl, -⟩ := ih
    exact ⟨_, others, _, rest, .cons hlist hunder, hothers, rfl, (List.append_assoc _ _ _).symm,
      fun _ => List.cons_ne_nil _ _⟩

/-- Lists under a tag that end the header. -/
theorem SpellsLists.taggedRest {tag : List Char} {lists : List IfList} {tokens : List Token}
    (h : SpellsLists true tag lists tokens) (hne : lists ≠ []) (opened : Bool) :
    TaggedRest tag opened lists tokens := by
  induction h generalizing opened with
  | nil => exact absurd rfl hne
  | @cons conditions lists first rest hlist hlists ih =>
    cases lists with
    | nil =>
      cases hlists
      rw [List.append_nil]
      exact .last hlist
    | cons list lists => exact .list hlist (ih (List.cons_ne_nil _ _) true)

/-- Lists under a tag that another tag follows. -/
theorem SpellsLists.append_taggedRest {tag : List Char} {lists others : List IfList}
    {first rest : List Token} (h : SpellsLists true tag lists first) {opened : Bool}
    (hopened : opened = false → lists ≠ []) (hrest : TaggedRest tag true others rest) :
    TaggedRest tag opened (lists ++ others) (first ++ rest) := by
  induction h generalizing opened with
  | nil =>
    cases opened with
    | true => exact hrest
    | false => exact absurd rfl (hopened rfl)
  | cons hlist _ ih =>
    rw [List.append_assoc]
    exact .list hlist (ih fun h => nomatch h)

theorem SpellsTagged.eq_nil {lists : List IfList} {tokens : List Token}
    (h : SpellsTagged true lists tokens) (hnil : lists = []) : tokens = [] := by
  cases h with
  | nil => rfl
  | cons hne _ _ => exact absurd (List.append_eq_nil_iff.mp hnil).1 hne

theorem SpellsTagged.taggedRest {lists : List IfList} {tokens : List Token}
    (h : SpellsTagged true lists tokens) (hne : lists ≠ []) (tag : List Char) :
    TaggedRest tag true lists tokens := by
  induction h generalizing tag with
  | nil => exact absurd rfl hne
  | @cons text lists others first rest hlists hspells hothers ih =>
    apply TaggedRest.tag
    rcases eq_or_ne others [] with rfl | hmore
    · rw [hothers.eq_nil rfl, List.append_nil, List.append_nil]
      exact hspells.taggedRest hlists false
    · exact hspells.append_taggedRest (fun _ => hlists) (ih hmore text)

/-! ### The header -/

/-- What is left after tokens ends the text. -/
theorem Reads.suffix {s rest : List Char} {tokens : List Token} (h : Reads s tokens rest) :
    rest <:+ s := by
  induction h with
  | nil => exact List.suffix_rfl
  | cons hbegins _ ih =>
    obtain ⟨blanks, text, -, -, -, rfl⟩ := hbegins
    exact ih.trans ⟨blanks ++ text, List.append_assoc _ _ _⟩

/-- A trimmed text does not end in blanks. -/
theorem eq_nil_of_blank_suffix {header blanks : List Char} (h : blanks <:+ Utf8.trim header)
    (hblanks : ∀ c ∈ blanks, isBlank c = true) : blanks = [] := by
  by_contra hne
  obtain ⟨front, hfront⟩ := h
  have hlast : Utf8.isWhitespace (blanks.getLast hne) = true := by
    have hblank := hblanks _ (List.getLast_mem hne)
    unfold isBlank at hblank
    rcases Bool.or_eq_true_iff.mp hblank with h | h
    · rw [eq_of_beq h]
      rfl
    · rw [eq_of_beq h]
      rfl
  have htrim : Utf8.trim header ≠ [] := by
    rw [← hfront]
    exact List.append_ne_nil_of_right_ne_nil front hne
  have hend : (Utf8.trim header).getLast htrim = blanks.getLast hne := by
    simp only [← hfront]
    exact List.getLast_append_of_ne_nil _ hne
  have hnot := List.rdropWhile_last_not Utf8.isWhitespace _ htrim
  apply hnot
  exact hend ▸ hlast

theorem parseIf_isSome (header : List Char) : ∃ result, parseIf header = some result := by
  obtain ⟨token, rest, hlex⟩ := lex_isSome (Utf8.trim header)
  unfold parseIf
  simp only
  rw [hlex, Option.bind_eq_bind, Option.bind_some]
  split
  · exact parseUntagged_isSome (Nat.lt_succ_self _) _
  · exact parseTagged_isSome (Nat.lt_succ_self _) _ _ _ _
  · exact ⟨_, rfl⟩

/-- The lists that are returned are those that the header spells. -/
theorem parseIf_ok {header : List Char} {lists : List IfList} :
    parseIf header = some (some lists) ↔ Spells true header lists := by
  obtain ⟨token, rest, hlex⟩ := lex_isSome (Utf8.trim header)
  constructor
  · intro h
    unfold parseIf at h
    simp only at h
    rw [hlex, Option.bind_eq_bind, Option.bind_some] at h
    split at h
    · obtain ⟨more, tokens, rfl, hne, hspells, hreads⟩ := parseUntagged_sound h
      exact ⟨hne, tokens, [], hreads, fun c hc => absurd hc List.not_mem_nil, Or.inl hspells⟩
    · next text htoken =>
      obtain rfl : token = .angle text := htoken
      obtain ⟨more, tokens, rfl, hrest, hreads⟩ := parseTagged_sound h
      obtain ⟨under, others, first, last, hunder, hothers, rfl, rfl, -⟩ := hrest.spells
      have hnone : under = [] := by
        by_contra hne
        obtain ⟨tail, rfl⟩ := hunder.head hne
        cases hreads with
        | cons hbegins _ =>
          cases (lex_of_begins hbegins).symm.trans hlex
      subst hnone
      cases hunder
      exact ⟨hrest.lists_ne_nil, last, [], hreads, fun c hc => absurd hc List.not_mem_nil,
        Or.inr hothers⟩
    · cases h
  · rintro ⟨hne, tokens, blanks, hreads, hblanks, hspells⟩
    obtain rfl := eq_nil_of_blank_suffix hreads.suffix hblanks
    unfold parseIf
    simp only
    rcases hspells with hlists | htagged
    · obtain ⟨tail, rfl⟩ := hlists.head hne
      have hopen : ∃ next, lex (Utf8.trim header) = some (.char '(', next) := by
        cases hreads with
        | cons hbegins _ => exact ⟨_, lex_of_begins hbegins⟩
      obtain ⟨next, hopen⟩ := hopen
      rw [hopen, Option.bind_eq_bind, Option.bind_some]
      exact parseUntagged_complete (Nat.lt_succ_self _) hlists hne hreads
    · obtain ⟨text, tail, rfl⟩ : ∃ text tail, tokens = .angle text :: tail := by
        cases htagged with
        | nil => exact absurd rfl hne
        | cons _ _ _ => exact ⟨_, _, rfl⟩
      have hangle : ∃ next, lex (Utf8.trim header) = some (.angle text, next) := by
        cases hreads with
        | cons hbegins _ => exact ⟨_, lex_of_begins hbegins⟩
      obtain ⟨next, hangle⟩ := hangle
      rw [hangle, Option.bind_eq_bind, Option.bind_some]
      exact parseTagged_complete (Nat.lt_succ_self _) (htagged.taggedRest hne []) rfl hreads

/-- The parser ends for every header without cutting a character, and it returns lists exactly for
the headers that spell them, these lists in order. -/
theorem parseIf_spec (header : List Char) :
    ∃ result, parseIf header = some result ∧
      ∀ lists, result = some lists ↔ Spells true header lists := by
  obtain ⟨result, hresult⟩ := parseIf_isSome header
  refine ⟨result, hresult, fun lists => ?_⟩
  rw [← parseIf_ok, hresult]
  exact (Option.some.injEq _ _).symm ▸ Iff.rfl

/-! ### Words -/

/-- Where words are no state tokens, no word is read. -/
theorem SpellsCondition.not_str {condition : Condition} {tokens : List Token}
    (h : SpellsCondition false condition tokens) (word : List Char) : .str word ∉ tokens := by
  cases h with
  | token hstate => cases hstate with
    | angle => simp
    | word h => cases h
  | etag => simp
  | notToken hstate => cases hstate with
    | angle => simp
    | word h => cases h
  | notEtag => simp

theorem SpellsConditions.not_str {conditions : List Condition} {tokens : List Token}
    (h : SpellsConditions false conditions tokens) (word : List Char) : .str word ∉ tokens := by
  induction h with
  | nil => exact List.not_mem_nil
  | cons hfirst _ ih =>
    rw [List.mem_append, not_or]
    exact ⟨hfirst.not_str word, ih⟩

theorem SpellsList.not_str {conditions : List Condition} {tokens : List Token}
    (h : SpellsList false conditions tokens) (word : List Char) : .str word ∉ tokens := by
  obtain ⟨-, inner, hinner, rfl⟩ := h
  have hnot := hinner.not_str word
  simpa using hnot

theorem SpellsLists.not_str {tag : List Char} {lists : List IfList} {tokens : List Token}
    (h : SpellsLists false tag lists tokens) (word : List Char) : .str word ∉ tokens := by
  induction h with
  | nil => exact List.not_mem_nil
  | cons hfirst _ ih =>
    rw [List.mem_append, not_or]
    exact ⟨hfirst.not_str word, ih⟩

theorem SpellsTagged.not_str {lists : List IfList} {tokens : List Token}
    (h : SpellsTagged false lists tokens) (word : List Char) : .str word ∉ tokens := by
  induction h with
  | nil => exact List.not_mem_nil
  | cons _ hlists _ ih =>
    rw [List.mem_cons, List.mem_append, not_or, not_or]
    exact ⟨(fun h => nomatch h), hlists.not_str word, ih⟩

/-- A word between parentheses is taken for a state token, which no coded URL stands for. -/
theorem bare_word_accepted :
    parseIf "(abc)".toList = some (some [⟨[], [⟨false, "abc".toList, []⟩]⟩]) ∧
      ¬∃ lists, Spells false "(abc)".toList lists := by
  refine ⟨by decide, ?_⟩
  rintro ⟨lists, -, tokens, blanks, hreads, hblanks, hspells⟩
  have hword : Token.str "abc".toList ∈ tokens := by
    have hfirst : lex (Utf8.trim "(abc)".toList) = some (.char '(', "abc)".toList) := by decide
    have hsecond : lex "abc)".toList = some (.str "abc".toList, ")".toList) := by decide
    cases hreads with
    | nil => exact absurd (hblanks '(' (by decide)) (by decide)
    | cons hbegins hreads =>
      obtain ⟨rfl, rfl⟩ := Prod.mk.inj (Option.some.inj ((lex_of_begins hbegins).symm.trans hfirst))
      cases hreads with
      | nil => exact absurd (hblanks 'a' (by decide)) (by decide)
      | cons hbegins hreads =>
        obtain ⟨rfl, rfl⟩ :=
          Prod.mk.inj (Option.some.inj ((lex_of_begins hbegins).symm.trans hsecond))
        exact List.mem_cons_of_mem _ List.mem_cons_self
  rcases hspells with hlists | htagged
  · exact hlists.not_str _ hword
  · exact htagged.not_str _ hword

end Rustorr.IfParser
