import Rustorr.Http.GoDecode

/-! Each state of the scanner with its stack stands for the texts that complete the
value begun, and each step keeps to them. -/

namespace Rustorr.GoDecode

open Scan (Seq seq_nil seq_cons seq_congr seq_assoc seq_empty Next Agrees Recognises)
open Json

/-- What completes the open containers after a value has ended. -/
inductive Closes : List Parse → Bytes → Prop
  | top : Closes [] []
  | space {p s b t} : isSpace b → Closes (p :: s) t → Closes (p :: s) (b :: t)
  | closeArray {s t} : Closes s t → Closes (.arrayValue :: s) (ascii ']' :: t)
  | nextElement {s u t} : Text u → Closes (.arrayValue :: s) t →
    Closes (.arrayValue :: s) (ascii ',' :: (u ++ t))
  | closeObject {s t} : Closes s t → Closes (.objectValue :: s) (ascii '\x7d' :: t)
  | nextMember {s u t} : Key u → Closes (.objectKey :: s) t →
    Closes (.objectValue :: s) (ascii ',' :: (u ++ t))
  | memberValue {s u t} : Text u → Closes (.objectValue :: s) t →
    Closes (.objectKey :: s) (ascii ':' :: (u ++ t))

/-- What a state asks for before the value it is in has ended. -/
def State.rest : State → Bytes → Prop
  | .beginValue | .beginValueOrEmpty => Text
  | .beginString | .beginStringOrEmpty => Key
  | .endValue => (· = [])
  | .inString => Chars
  | .inStringEsc => Escape
  | .inStringEscU seen => HexChars (4 - seen)
  | .neg => Unsigned
  | .one => Seq Digits (Seq Fraction Exponent)
  | .zero => Seq Fraction Exponent
  | .dot => Seq SomeDigits Exponent
  | .dot0 => Seq Digits Exponent
  | .e => SignedDigits
  | .eSign => SomeDigits
  | .e0 => Digits
  | .literal name seen => (· = (word name).drop seen)

/-- The texts of a configuration. A container that was just opened may end at once. -/
def Completes : State × List Parse → Bytes → Prop
  | (.beginValueOrEmpty, stack), t =>
    Seq Space (fun u => ∃ r, u = ascii ']' :: r ∧ Closes stack.tail r) t ∨ Seq Text (Closes stack) t
  | (.beginStringOrEmpty, stack), t =>
    Seq Space (fun u => ∃ r, u = ascii '\x7d' :: r ∧ Closes stack.tail r) t ∨
      Seq Key (Closes stack) t
  | (state, stack), t => Seq state.rest (Closes stack) t

/-- A step as the answer of a scanner. -/
def answer : Except String (Step × List Parse) → Next (State × List Parse) String
  | .error e => .bad e
  | .ok (.continue next, stack) => .go (next, stack)
  | .ok (.closed, stack) => if stack.isEmpty then .last else .go (.endValue, stack)
  | .ok (.topEnd, _) => .stop

def next (c : State × List Parse) (byte : UInt8) : Next (State × List Parse) String :=
  answer (step c.1 byte (isSpace byte) c.2)

/-! ### Containers -/

theorem Closes.spaces {p : Parse} {s : List Parse} {w t : Bytes} (hw : Space w)
    (ht : Closes (p :: s) t) : Closes (p :: s) (w ++ t) := by
  induction w with
  | nil => exact ht
  | cons b w ih =>
    obtain ⟨hb, hw⟩ := space_cons.mp hw
    exact .space hb (ih hw)

/-- How a text that completes an open container goes on. -/
def Tail : Parse → List Parse → Bytes → Prop
  | .arrayValue, s, t => (∃ r, t = ascii ']' :: r ∧ Closes s r) ∨
    ∃ e r, t = ascii ',' :: (e ++ ascii ']' :: r) ∧ Elements Value e ∧ Closes s r
  | .objectValue, s, t => (∃ r, t = ascii '\x7d' :: r ∧ Closes s r) ∨
    ∃ m r, t = ascii ',' :: (m ++ ascii '\x7d' :: r) ∧ Members Value m ∧ Closes s r
  | .objectKey, s, t => ∃ w v w' u, t = ascii ':' :: (w ++ (v ++ (w' ++ u))) ∧ Space w ∧ Value v ∧
    Space w' ∧ ((∃ r, u = ascii '\x7d' :: r ∧ Closes s r) ∨
      ∃ m r, u = ascii ',' :: (m ++ ascii '\x7d' :: r) ∧ Members Value m ∧ Closes s r)

theorem Closes.tail {p : Parse} {s : List Parse} {t : Bytes} (h : Closes (p :: s) t) :
    ∃ w u, t = w ++ u ∧ Space w ∧ Tail p s u := by
  generalize hs : p :: s = stack at h
  induction h generalizing p s with
  | top => cases hs
  | space hb _ ih =>
    obtain ⟨w, u, rfl, hw, hu⟩ := ih hs
    exact ⟨_ :: w, u, rfl, space_cons.mpr ⟨hb, hw⟩, hu⟩
  | closeArray ht =>
    cases hs
    exact ⟨[], _, rfl, space_nil, .inl ⟨_, rfl, ht⟩⟩
  | nextElement hu _ ih =>
    cases hs
    obtain ⟨w, v, hw, hv, rfl⟩ := hu
    obtain ⟨w', u, rfl, hw', ⟨r, rfl, hr⟩ | ⟨e, r, rfl, he, hr⟩⟩ := ih rfl
    · refine ⟨[], _, rfl, space_nil, .inr ⟨w ++ (v ++ w'), r, ?_, .one hw hv hw', hr⟩⟩
      simp only [List.append_assoc]
    · refine ⟨[], _, rfl, space_nil, .inr ⟨_, r, ?_, .cons hw hv hw' he, hr⟩⟩
      simp only [List.append_assoc, List.cons_append]
  | closeObject ht =>
    cases hs
    exact ⟨[], _, rfl, space_nil, .inl ⟨_, rfl, ht⟩⟩
  | nextMember hu _ ih =>
    cases hs
    obtain ⟨w, k, hw, hk, rfl⟩ := hu
    obtain ⟨w₁, u, rfl, hw₁, w₂, v, w', u', rfl, hw₂, hv, hw', ⟨r, rfl, hr⟩ | ⟨m, r, rfl, hm, hr⟩⟩ :=
      ih rfl
    · refine ⟨[], _, rfl, space_nil, .inr ⟨_, r, ?_, .one hw hk hw₁ hw₂ hv hw', hr⟩⟩
      simp only [List.append_assoc, List.cons_append]
    · refine ⟨[], _, rfl, space_nil, .inr ⟨_, r, ?_, .cons hw hk hw₁ hw₂ hv hw' hm, hr⟩⟩
      simp only [List.append_assoc, List.cons_append]
  | memberValue hu _ ih =>
    cases hs
    obtain ⟨w, v, hw, hv, rfl⟩ := hu
    obtain ⟨w', u, rfl, hw', hu'⟩ := ih rfl
    refine ⟨[], _, rfl, space_nil, w, v, w', u, ?_, hw, hv, hw', hu'⟩
    simp only [List.append_assoc]

theorem closes_elements {s : List Parse} {e r : Bytes} (he : Elements Value e) (hr : Closes s r) :
    Seq Text (Closes (.arrayValue :: s)) (e ++ ascii ']' :: r) := by
  induction he with
  | @one w v w' hw hv hw' =>
    exact ⟨w ++ v, w' ++ ascii ']' :: r, ⟨w, v, hw, hv, rfl⟩, .spaces hw' (.closeArray hr),
      by simp only [List.append_assoc]⟩
  | @cons w v w' u hw hv hw' _ ih =>
    obtain ⟨x, y, hx, hy, heq⟩ := ih
    refine ⟨w ++ v, w' ++ ascii ',' :: (x ++ y), ⟨w, v, hw, hv, rfl⟩,
      .spaces hw' (.nextElement hx hy), ?_⟩
    simp only [List.append_assoc, List.cons_append, heq]

theorem closes_members {s : List Parse} {m r : Bytes} (hm : Members Value m) (hr : Closes s r) :
    Seq Key (Closes (.objectKey :: s)) (m ++ ascii '\x7d' :: r) := by
  induction hm with
  | @one w k w₁ w₂ v w' hw hk hw₁ hw₂ hv hw' =>
    refine ⟨w ++ k, w₁ ++ ascii ':' :: ((w₂ ++ v) ++ (w' ++ ascii '\x7d' :: r)), ⟨w, k, hw, hk, rfl⟩,
      .spaces hw₁ (.memberValue ⟨w₂, v, hw₂, hv, rfl⟩ (.spaces hw' (.closeObject hr))), ?_⟩
    simp only [List.append_assoc, List.cons_append]
  | @cons w k w₁ w₂ v w' u hw hk hw₁ hw₂ hv hw' _ ih =>
    obtain ⟨x, y, hx, hy, heq⟩ := ih
    refine ⟨w ++ k, w₁ ++ ascii ':' :: ((w₂ ++ v) ++ (w' ++ ascii ',' :: (x ++ y))),
      ⟨w, k, hw, hk, rfl⟩,
      .spaces hw₁ (.memberValue ⟨w₂, v, hw₂, hv, rfl⟩ (.spaces hw' (.nextMember hx hy))), ?_⟩
    simp only [List.append_assoc, List.cons_append, heq]

/-- The rest of an array is what its first element or its end begins. -/
theorem arrayRest_closes {s : List Parse} {t : Bytes} :
    Seq ArrayRest (Closes s) t ↔ Completes (.beginValueOrEmpty, .arrayValue :: s) t := by
  constructor
  · rintro ⟨_, r, ⟨w, hw, rfl⟩ | ⟨e, he, rfl⟩, hr, rfl⟩
    · exact .inl ⟨w, _, hw, ⟨r, rfl, hr⟩, List.append_assoc _ _ _⟩
    · refine .inr ?_
      rw [List.append_assoc]
      exact closes_elements he hr
  · rintro (⟨w, _, hw, ⟨r, rfl, hr⟩, rfl⟩ | ⟨_, t', ⟨w, v, hw, hv, rfl⟩, ht', rfl⟩)
    · exact ⟨w ++ [ascii ']'], r, .inl ⟨w, hw, rfl⟩, hr, List.append_cons w _ r⟩
    · obtain ⟨w', u, rfl, hw', ⟨r, rfl, hr⟩ | ⟨e, r, rfl, he, hr⟩⟩ := ht'.tail
      · refine ⟨_, r, .inr ⟨_, .one hw hv hw', rfl⟩, hr, ?_⟩
        simp only [List.append_assoc, List.cons_append, List.nil_append]
      · refine ⟨_, r, .inr ⟨_, .cons hw hv hw' he, rfl⟩, hr, ?_⟩
        simp only [List.append_assoc, List.cons_append, List.nil_append]

theorem objectRest_closes {s : List Parse} {t : Bytes} :
    Seq ObjectRest (Closes s) t ↔ Completes (.beginStringOrEmpty, .objectKey :: s) t := by
  constructor
  · rintro ⟨_, r, ⟨w, hw, rfl⟩ | ⟨m, hm, rfl⟩, hr, rfl⟩
    · exact .inl ⟨w, _, hw, ⟨r, rfl, hr⟩, List.append_assoc _ _ _⟩
    · refine .inr ?_
      rw [List.append_assoc]
      exact closes_members hm hr
  · rintro (⟨w, _, hw, ⟨r, rfl, hr⟩, rfl⟩ | ⟨_, t', ⟨w, k, hw, hk, rfl⟩, ht', rfl⟩)
    · exact ⟨w ++ [ascii '\x7d'], r, .inl ⟨w, hw, rfl⟩, hr, List.append_cons w _ r⟩
    · obtain ⟨w₁, _, rfl, hw₁, w₂, v, w', u, rfl, hw₂, hv, hw', ⟨r, rfl, hr⟩ | ⟨m, r, rfl, hm, hr⟩⟩ :=
        ht'.tail
      · refine ⟨_, r, .inr ⟨_, .one hw hk hw₁ hw₂ hv hw', rfl⟩, hr, ?_⟩
        simp only [List.append_assoc, List.cons_append, List.nil_append]
      · refine ⟨_, r, .inr ⟨_, .cons hw hk hw₁ hw₂ hv hw' hm, rfl⟩, hr, ?_⟩
        simp only [List.append_assoc, List.cons_append, List.nil_append]

/-! ### One step -/

section step

variable {b : UInt8} {s : List Parse} {P P' : Bytes → Prop}

/-- A byte that may follow a value. -/
def follows (b : UInt8) : Bool :=
  isSpace b || b == ascii ']' || b == ascii '\x7d' || b == ascii ',' || b == ascii ':'

theorem Closes.follows {t : Bytes} (h : Closes s (b :: t)) : follows b := by
  unfold GoDecode.follows
  cases h with
  | space hb => simp [hb]
  | _ => decide

theorem not_closes {t : Bytes} (hb : follows b = false) : ¬Closes s (b :: t) := fun h => by
  rw [h.follows] at hb
  cases hb

theorem seq_step (hnil : P [] → follows b = false) (hcons : ∀ u, P (b :: u) ↔ P' u) (t : Bytes) :
    Seq P (Closes s) (b :: t) ↔ Seq P' (Closes s) t := by
  rw [seq_cons]
  constructor
  · rintro (⟨hP, ht⟩ | h)
    · exact absurd ht (not_closes (hnil hP))
    · exact (seq_congr hcons (fun _ => Iff.rfl) t).mp h
  · exact fun h => .inr ((seq_congr hcons (fun _ => Iff.rfl) t).mpr h)

theorem seq_bad (hnil : ¬P []) (hcons : ∀ u, ¬P (b :: u)) :
    ¬Seq P (Closes s) [] ∧ ∀ t, ¬Seq P (Closes s) (b :: t) := by
  refine ⟨fun h => hnil (seq_nil.mp h).1, fun t h => ?_⟩
  rcases seq_cons.mp h with ⟨hP, -⟩ | ⟨u, r, hu, -, -⟩
  · exact hnil hP
  · exact hcons u hu

theorem agrees_closed {c : State × List Parse} (h : ∀ t, Completes c (b :: t) ↔ Closes s t) :
    Agrees Completes c b (answer (.ok (.closed, s))) := by
  cases s with
  | nil =>
    refine fun t => (h t).trans ⟨fun ht => ?_, fun ht => ht ▸ .top⟩
    cases ht
    rfl
  | cons p s => exact fun t => (h t).trans (seq_empty (B := UInt8)).symm

/-- Where the value may have ended, the byte is left to what follows it. -/
theorem agrees_endValue {c : State × List Parse} (hc : ∀ t, Completes c t ↔ Seq P (Closes s) t)
    (hnil : P []) (hcons : ∀ u, ¬P (b :: u)) :
    Agrees Completes c b (answer (endValue b (isSpace b) s)) := by
  have hrest : ∀ t, Completes c (b :: t) ↔ Closes s (b :: t) := fun t => by
    rw [hc, seq_cons]
    constructor
    · rintro (⟨-, h⟩ | ⟨u, r, hu, -, -⟩)
      · exact h
      · exact absurd hu (hcons u)
    · exact fun h => .inl ⟨hnil, h⟩
  have hempty : Completes c [] ↔ Closes s [] := by
    rw [hc, seq_nil]
    exact and_iff_right hnil
  unfold endValue
  cases s with
  | nil => exact ⟨hempty.mpr .top, fun t h => nomatch (hrest t).mp h⟩
  | cons p s =>
    have hnil' : ¬Completes c [] := fun h => nomatch hempty.mp h
    have hgo : ∀ {t s'}, Completes (.endValue, s') t ↔ Closes s' t := seq_empty
    dsimp only
    split
    · next hspace =>
      refine fun t => (hrest t).trans (Iff.trans ⟨fun h => ?_, .space hspace⟩ hgo.symm)
      cases h with
      | space _ h => exact h
      | _ => exact absurd hspace (by decide)
    · next hspace =>
      cases p with
      | objectKey =>
        dsimp only
        split
        · next hb =>
          refine fun t => (hrest t).trans ⟨fun h => ?_, fun ⟨u, r, hu, hr, ht⟩ => ?_⟩
          · cases h with
            | space h _ => exact absurd h hspace
            | memberValue hu hr => exact ⟨_, _, hu, hr, rfl⟩
          · rw [hb, ht]
            exact .memberValue hu hr
        · next hb =>
          refine ⟨hnil', fun t h => ?_⟩
          cases (hrest t).mp h with
          | space h _ => exact hspace h
          | memberValue _ _ => exact hb rfl
      | objectValue =>
        dsimp only
        split
        · next hb =>
          refine fun t => (hrest t).trans ⟨fun h => ?_, fun ⟨u, r, hu, hr, ht⟩ => ?_⟩
          · cases h with
            | space h _ => exact absurd h hspace
            | closeObject _ => exact absurd hb (by decide)
            | nextMember hu hr => exact ⟨_, _, hu, hr, rfl⟩
          · rw [hb, ht]
            exact .nextMember hu hr
        · next hcomma =>
          split
          · next hb =>
            refine agrees_closed fun t => (hrest t).trans ⟨fun h => ?_, fun h => hb ▸ .closeObject h⟩
            cases h with
            | space h _ => exact absurd h hspace
            | closeObject h => exact h
            | nextMember _ _ => exact absurd rfl hcomma
          · next hb =>
            refine ⟨hnil', fun t h => ?_⟩
            cases (hrest t).mp h with
            | space h _ => exact hspace h
            | closeObject _ => exact hb rfl
            | nextMember _ _ => exact hcomma rfl
      | arrayValue =>
        dsimp only
        split
        · next hb =>
          refine agrees_closed fun t => (hrest t).trans ⟨fun h => ?_, fun h => hb ▸ .closeArray h⟩
          cases h with
          | space h _ => exact absurd h hspace
          | closeArray h => exact h
          | nextElement _ _ => exact absurd hb (by decide)
        · next hclose =>
          split
          · next hb =>
            refine fun t => (hrest t).trans ⟨fun h => ?_, fun ⟨u, r, hu, hr, ht⟩ => ?_⟩
            · cases h with
              | space h _ => exact absurd h hspace
              | closeArray _ => exact absurd rfl hclose
              | nextElement hu hr => exact ⟨_, _, hu, hr, rfl⟩
            · rw [hb, ht]
              exact .nextElement hu hr
          · next hb =>
            refine ⟨hnil', fun t h => ?_⟩
            cases (hrest t).mp h with
            | space h _ => exact hspace h
            | closeArray _ => exact hclose rfl
            | nextElement _ _ => exact hb rfl

/-! ### Values and keys -/

theorem text_step (hspace : isSpace b = true) (t : Bytes) :
    Seq Text (Closes s) (b :: t) ↔ Seq Text (Closes s) t := by
  refine seq_step (fun h => absurd h not_text_nil) (fun u => ?_) t
  rw [text_cons]
  simp only [not_value_of_space hspace, hspace, true_and, false_or]

theorem key_step (hspace : isSpace b = true) (t : Bytes) :
    Seq Key (Closes s) (b :: t) ↔ Seq Key (Closes s) t := by
  refine seq_step (fun h => absurd h not_key_nil) (fun u => ?_) t
  have hquote : b ≠ ascii '"' := ne_of_class hspace (by decide)
  rw [key_cons]
  simp only [hquote, hspace, true_and, false_and, false_or]

/-- A value that begins here goes on in the state for it. -/
theorem value_step (hspace : ¬isSpace b = true) (h : ∀ u, Value (b :: u) ↔ P' u) (t : Bytes) :
    Seq Text (Closes s) (b :: t) ↔ Seq P' (Closes s) t := by
  refine seq_step (fun h => absurd h not_text_nil) (fun u => ?_) t
  rw [text_cons]
  simp only [hspace, Bool.false_eq_true, false_and, or_false, h]

theorem agrees_beginValue {c : State × List Parse}
    (hc : ∀ t, Completes c (b :: t) ↔ Seq Text (Closes s) (b :: t)) (hnil : ¬Completes c []) :
    Agrees Completes c b (answer (beginValue b (isSpace b) s)) := by
  unfold beginValue
  split
  · next hspace => exact fun t => (hc t).trans (text_step hspace t)
  next hspace =>
  have hgo : ∀ {P'} {c' : State × List Parse}, (∀ u, Value (b :: u) ↔ P' u) →
      (∀ t, Completes c' t ↔ Seq P' (Closes s) t) →
      Agrees Completes c b (Next.go (E := String) c') := fun h hc' t =>
    ((hc t).trans (value_step hspace h t)).trans (hc' t).symm
  -- the byte tells which kind of value begins
  split
  · next hb =>
    subst hb
    refine hgo (fun u => ?_) fun t => objectRest_closes.symm
    rw [value_first]
    simp +decide only [true_and, false_and, false_or]
  next hbrace =>
  split
  · next hb =>
    subst hb
    refine hgo (fun u => ?_) fun t => arrayRest_closes.symm
    rw [value_first]
    simp +decide only [true_and, false_and, false_or, or_false]
  next hbracket =>
  split
  · next hb =>
    subst hb
    refine hgo (fun u => ?_) fun t => Iff.rfl
    show _ ↔ Chars u
    rw [value_first]
    simp +decide only [true_and, false_and, false_or, or_false]
  next hquote =>
  split
  · next hb =>
    subst hb
    refine hgo (fun u => ?_) fun t => Iff.rfl
    show _ ↔ Unsigned u
    rw [value_first]
    simp +decide only [true_and, false_and, false_or, or_false]
  next hminus =>
  split
  · next hb =>
    subst hb
    refine hgo (fun u => ?_) fun t => Iff.rfl
    show _ ↔ Seq Fraction Exponent u
    rw [value_first]
    simp +decide only [true_and, false_and, false_or, or_false]
  next hzero =>
  split
  · next hdigit =>
    refine hgo (fun u => ?_) fun t => Iff.rfl
    show _ ↔ Seq Digits (Seq Fraction Exponent) u
    have ht : b ≠ ascii 't' := ne_of_class hdigit (by decide)
    have hf : b ≠ ascii 'f' := ne_of_class hdigit (by decide)
    have hn : b ≠ ascii 'n' := ne_of_class hdigit (by decide)
    rw [value_first]
    simp only [ht, hf, hn, hbrace, hbracket, hquote, hminus, hzero, hdigit, ne_eq,
      not_false_eq_true, true_and, false_and, false_or, or_false]
  next hdigit =>
  split
  · next hb =>
    subst hb
    refine hgo (fun u => ?_) fun t => Iff.rfl
    show _ ↔ u = (word "true").drop 1
    rw [value_first]
    simp +decide only [true_and, false_and, or_false]
  next ht =>
  split
  · next hb =>
    subst hb
    refine hgo (fun u => ?_) fun t => Iff.rfl
    show _ ↔ u = (word "false").drop 1
    rw [value_first]
    simp +decide only [true_and, false_and, false_or, or_false]
  next hf =>
  split
  · next hb =>
    subst hb
    refine hgo (fun u => ?_) fun t => Iff.rfl
    show _ ↔ u = (word "null").drop 1
    rw [value_first]
    simp +decide only [true_and, false_and, false_or, or_false]
  next hn =>
  refine ⟨hnil, fun t h => ?_⟩
  refine (seq_bad (s := s) not_text_nil fun u hu => ?_).2 t ((hc t).mp h)
  rw [text_cons, value_first] at hu
  simp only [ht, hf, hn, hbrace, hbracket, hquote, hminus, hzero, hdigit, hspace,
    Bool.false_eq_true, false_and, or_self] at hu

theorem agrees_beginString {c : State × List Parse}
    (hc : ∀ t, Completes c (b :: t) ↔ Seq Key (Closes s) (b :: t)) (hnil : ¬Completes c []) :
    Agrees Completes c b (answer (beginString b (isSpace b) s)) := by
  unfold beginString
  split
  · next hspace => exact fun t => (hc t).trans (key_step hspace t)
  next hspace =>
  have hkey : ∀ u, Key (b :: u) ↔ b = ascii '"' ∧ Chars u := fun u => by
    rw [key_cons]
    simp only [hspace, Bool.false_eq_true, false_and, or_false]
  split
  · next hb =>
    refine fun t => (hc t).trans (seq_step (fun h => absurd h not_key_nil) (fun u => ?_) t)
    exact (hkey u).trans (and_iff_right hb)
  · next hb =>
    refine ⟨hnil, fun t h => ?_⟩
    exact (seq_bad (s := s) not_key_nil fun u hu => hb ((hkey u).mp hu).1).2 t ((hc t).mp h)

/-- A container that was just opened: its closing byte ends it. -/
theorem agrees_opened {close : UInt8} {first : Bytes → Prop} {c : State × List Parse}
    {other : Except String (Step × List Parse)}
    (hc : ∀ t, Completes c t ↔
      Seq Space (fun u => ∃ r, u = close :: r ∧ Closes s.tail r) t ∨ Seq first (Closes s) t)
    (hclose : isSpace close = false) (hfirst : ¬first []) (hempty : ∀ u, ¬first (close :: u))
    (hspace : isSpace b = true → ∀ t, Seq first (Closes s) (b :: t) ↔ Seq first (Closes s) t)
    (hother : (∀ t, Completes c (b :: t) ↔ Seq first (Closes s) (b :: t)) → ¬Completes c [] →
      Agrees Completes c b (answer other)) :
    Agrees Completes c b (answer (if isSpace b then .ok (.continue c.1, c.2) else
      if b = close then .ok (.closed, s.tail) else other)) := by
  have hend : ∀ t, Seq Space (fun u => ∃ r, u = close :: r ∧ Closes s.tail r) (b :: t) ↔
      (b = close ∧ Closes s.tail t) ∨
        (isSpace b ∧ Seq Space (fun u => ∃ r, u = close :: r ∧ Closes s.tail r) t) := fun t => by
    rw [seq_cons]
    constructor
    · rintro (⟨-, r, heq, hr⟩ | ⟨w, r, hw, hr, rfl⟩)
      · obtain ⟨rfl, rfl⟩ := List.cons.inj heq
        exact .inl ⟨rfl, hr⟩
      · obtain ⟨hb, hw⟩ := space_cons.mp hw
        exact .inr ⟨hb, w, r, hw, hr, rfl⟩
    · rintro (⟨rfl, ht⟩ | ⟨hb, w, r, hw, hr, rfl⟩)
      · exact .inl ⟨space_nil, t, rfl, ht⟩
      · exact .inr ⟨w, r, space_cons.mpr ⟨hb, hw⟩, hr, rfl⟩
  have hnil : ¬Completes c [] := fun h => by
    rcases (hc []).mp h with h | h
    · obtain ⟨-, r, heq, -⟩ := seq_nil.mp h
      cases heq
    · exact hfirst (seq_nil.mp h).1
  split
  · next hb =>
    intro t
    have hne : b ≠ close := ne_of_class hb hclose
    rw [hc, hc, hend, hspace hb]
    simp only [hne, hb, false_and, true_and, false_or]
  next hb =>
  split
  · next heq =>
    refine agrees_closed fun t => ?_
    rw [hc, hend]
    have hno : ¬Seq first (Closes s) (b :: t) := by
      rw [heq]
      exact (seq_bad hfirst hempty).2 t
    simp only [heq, hclose, Bool.false_eq_true, false_and, true_and, or_false]
    rw [heq] at hno
    exact or_iff_left hno
  next heq =>
  refine hother (fun t => ?_) hnil
  rw [hc, hend]
  simp only [heq, hb, Bool.false_eq_true, false_and, or_self, false_or]

/-! ### Every state -/

theorem agrees_beginValueOrEmpty : Agrees Completes (.beginValueOrEmpty, s) b
    (next (.beginValueOrEmpty, s) b) := by
  refine agrees_opened (fun t => Iff.rfl) (by decide) not_text_nil (fun u hu => ?_) text_step
    agrees_beginValue
  rw [text_cons, value_first] at hu
  simp +decide only [false_and, or_self] at hu

theorem agrees_beginStringOrEmpty : Agrees Completes (.beginStringOrEmpty, s) b
    (next (.beginStringOrEmpty, s) b) := by
  refine agrees_opened (fun t => Iff.rfl) (by decide) not_key_nil (fun u hu => ?_) key_step
    agrees_beginString
  rw [key_cons] at hu
  simp +decide only [false_and, or_self] at hu

theorem isPlain_iff : isPlain b ↔ b ≠ ascii '"' ∧ b ≠ ascii '\\' ∧ ¬b < 0x20 := by
  unfold isPlain
  simp only [Bool.and_eq_true, decide_eq_true_eq, UInt8.not_lt]
  exact ⟨fun h => ⟨h.1.2, h.2, h.1.1⟩, fun h => ⟨⟨h.2.2, h.1⟩, h.2.1⟩⟩

theorem agrees_inString : Agrees Completes (.inString, s) b (next (.inString, s) b) := by
  have hnil : Chars [] → follows b = false := fun h => absurd h not_chars_nil
  unfold next step
  dsimp only
  split
  · next hb =>
    subst hb
    refine seq_step hnil fun u => ?_
    show Chars (_ :: u) ↔ u = []
    rw [chars_cons, isPlain_iff]
    simp +decide only [true_and, false_and, or_false]
  next hquote =>
  split
  · next hb =>
    subst hb
    refine seq_step hnil fun u => ?_
    show Chars (_ :: u) ↔ Escape u
    rw [chars_cons, isPlain_iff]
    simp +decide only [true_and, false_and, false_or]
  next hslash =>
  split
  · next hb =>
    refine seq_bad not_chars_nil fun u hu => ?_
    rcases chars_cons.mp hu with h | ⟨h, -⟩ | h
    · exact hquote h.1
    · exact (isPlain_iff.mp h).2.2 hb
    · exact hslash h.1
  · next hb =>
    refine seq_step hnil fun u => ?_
    show Chars (_ :: u) ↔ Chars u
    rw [chars_cons, isPlain_iff]
    simp only [hquote, hslash, hb, ne_eq, not_false_eq_true, true_and, false_and, false_or,
      or_false]

theorem agrees_inStringEsc : Agrees Completes (.inStringEsc, s) b (next (.inStringEsc, s) b) := by
  have hnil : Escape [] → follows b = false := fun h => absurd h not_escape_nil
  have hescaped : isEscaped b = true ↔ b ∈ ['b', 'f', 'n', 'r', 't', '\\', '/', '"'].map ascii := by
    unfold isEscaped
    exact decide_eq_true_iff
  unfold next step
  dsimp only
  split
  · next hb =>
    have hu : b ≠ ascii 'u' := ne_of_class (hescaped.mpr hb) (by decide)
    refine seq_step hnil fun u => ?_
    show Escape (_ :: u) ↔ Chars u
    rw [escape_cons, hescaped]
    simp only [hb, hu, true_and, false_and, or_false]
  next hb =>
  split
  · next hu =>
    refine seq_step hnil fun u => ?_
    show Escape (_ :: u) ↔ HexChars 4 u
    rw [escape_cons, hescaped]
    simp only [hb, false_and, false_or]
    exact and_iff_right hu
  · next hu =>
    refine seq_bad not_escape_nil fun u h => ?_
    rcases escape_cons.mp h with h | h
    · exact hb (hescaped.mp h.1)
    · exact hu h.1

theorem hexLeft (seen : Fin 4) (h : ¬seen = 3) : 4 - (seen + 1).val = 3 - seen.val := by
  revert seen
  decide

theorem agrees_inStringEscU (seen : Fin 4) :
    Agrees Completes (.inStringEscU seen, s) b (next (.inStringEscU seen, s) b) := by
  have hlt := seen.isLt
  have hleft : 4 - seen.val = (3 - seen.val) + 1 := by omega
  have hrest : State.rest (.inStringEscU seen) = HexChars ((3 - seen.val) + 1) := by
    rw [← hleft]
    rfl
  have hnil : ¬State.rest (.inStringEscU seen) [] := by
    rw [hrest]
    exact not_hexChars_nil
  unfold next step
  dsimp only
  split
  · next hb =>
    have hcons : ∀ u, State.rest (.inStringEscU seen) (b :: u) ↔ HexChars (3 - seen.val) u := by
      intro u
      rw [hrest, hexChars_cons]
      exact and_iff_right hb
    split
    · next hseen =>
      refine seq_step (fun h => absurd h hnil) fun u => (hcons u).trans ?_
      subst hseen
      exact hexChars_zero
    · next hseen =>
      refine seq_step (fun h => absurd h hnil) fun u => (hcons u).trans ?_
      show _ ↔ HexChars (4 - (seen + 1).val) u
      rw [hexLeft seen hseen]
  · next hb =>
    refine seq_bad hnil fun u h => ?_
    rw [hrest] at h
    exact hb (hexChars_cons.mp h).1

/-- The bytes that may follow a value. -/
def followers : List UInt8 := [' ', '\t', '\r', '\n', ']', '\x7d', ',', ':'].map ascii

theorem not_follows_of_class {f : UInt8 → Bool} (hf : (followers.all fun c => !f c) = true)
    (hb : f b = true) : follows b = false := by
  by_contra h
  have hfollows : follows b = true := by simpa using h
  have hmem : b ∈ followers := by
    unfold follows isSpace at hfollows
    simpa [followers, or_assoc] using hfollows
  have hnot := List.all_eq_true.mp hf b hmem
  rw [hb] at hnot
  cases hnot

theorem not_follows_of_digit (hb : isDigit b = true) : follows b = false :=
  not_follows_of_class (by decide) hb

/-! ### Numbers -/

theorem agrees_exponent {c : State × List Parse}
    (hc : ∀ t, Completes c t ↔ Seq P (Closes s) t) (hnil : P [])
    (hcons : ∀ u, P (b :: u) ↔ Exponent (b :: u)) :
    Agrees Completes c b (answer (exponent b (isSpace b) s)) := by
  unfold exponent
  split
  · next hb =>
    intro t
    rw [hc]
    refine seq_step (fun _ => ?_) (fun u => ?_) t
    · rcases hb with rfl | rfl <;> decide
    · show _ ↔ SignedDigits u
      rw [hcons, exponent_cons]
      exact and_iff_right hb
  · next hb =>
    refine agrees_endValue hc hnil fun u h => hb ?_
    rw [hcons, exponent_cons] at h
    exact h.1

theorem fractionExponent_cons {u : Bytes} : Seq Fraction Exponent (b :: u) ↔
    Exponent (b :: u) ∨ (b = ascii '.' ∧ Seq SomeDigits Exponent u) := by
  rw [seq_cons]
  refine or_congr (and_iff_right .none) ⟨?_, ?_⟩
  · rintro ⟨f, x, hf, hx, rfl⟩
    obtain ⟨hb, hf⟩ := fraction_cons.mp hf
    exact ⟨hb, f, x, hf, hx, rfl⟩
  · rintro ⟨hb, f, x, hf, hx, rfl⟩
    exact ⟨f, x, fraction_cons.mpr ⟨hb, hf⟩, hx, rfl⟩

theorem agrees_fraction {c : State × List Parse}
    (hc : ∀ t, Completes c t ↔ Seq P (Closes s) t) (hnil : P [])
    (hcons : ∀ u, P (b :: u) ↔ Seq Fraction Exponent (b :: u)) :
    Agrees Completes c b (answer (fraction b (isSpace b) s)) := by
  unfold fraction
  split
  · next hb =>
    intro t
    rw [hc]
    refine seq_step (fun _ => by rw [hb]; decide) (fun u => ?_) t
    show _ ↔ Seq SomeDigits Exponent u
    rw [hcons, fractionExponent_cons, exponent_cons, hb]
    simp +decide only [true_and, false_and, false_or]
  · next hb =>
    refine agrees_exponent hc hnil fun u => ?_
    rw [hcons, fractionExponent_cons]
    simp only [hb, false_and, or_false]

/-- Digits before a part that does not begin with one. -/
theorem digits_seq {Q : Bytes → Prop} {u : Bytes} (hb : isDigit b = true) (hQ : ¬Q (b :: u)) :
    Seq Digits Q (b :: u) ↔ Seq Digits Q u := by
  rw [seq_cons]
  simp only [hQ, and_false, false_or]
  exact seq_congr (fun w => digits_cons.trans (and_iff_right hb)) (fun _ => Iff.rfl) u

theorem digits_seq_of_not {Q : Bytes → Prop} {u : Bytes} (hb : ¬isDigit b = true) :
    Seq Digits Q (b :: u) ↔ Q (b :: u) := by
  rw [seq_cons]
  refine (or_iff_left ?_).trans (and_iff_right digits_nil)
  rintro ⟨w, x, hw, -, -⟩
  exact hb (digits_cons.mp hw).1

theorem not_exponent_of_digit {u : Bytes} (hb : isDigit b = true) : ¬Exponent (b :: u) := by
  rw [exponent_cons]
  rintro ⟨h | h, -⟩
  · exact ne_of_class hb (by decide) h
  · exact ne_of_class hb (by decide) h

theorem not_fractionExponent_of_digit {u : Bytes} (hb : isDigit b = true) :
    ¬Seq Fraction Exponent (b :: u) := by
  rw [fractionExponent_cons]
  rintro (h | ⟨h, -⟩)
  · exact not_exponent_of_digit hb h
  · exact ne_of_class hb (by decide) h

theorem fractionExponent_nil : Seq Fraction Exponent [] := seq_nil.mpr ⟨.none, .none⟩

theorem agrees_one : Agrees Completes (.one, s) b (next (.one, s) b) := by
  unfold next step
  dsimp only
  split
  · next hb =>
    exact seq_step (fun _ => not_follows_of_digit hb) fun u =>
      digits_seq hb (not_fractionExponent_of_digit hb)
  · next hb =>
    exact agrees_fraction (fun t => Iff.rfl) (seq_nil.mpr ⟨digits_nil, fractionExponent_nil⟩)
      fun u => digits_seq_of_not hb

theorem agrees_zero : Agrees Completes (.zero, s) b (next (.zero, s) b) :=
  agrees_fraction (fun _ => Iff.rfl) fractionExponent_nil fun _ => Iff.rfl

theorem agrees_neg : Agrees Completes (.neg, s) b (next (.neg, s) b) := by
  have hnil : Unsigned [] → follows b = false := fun h => absurd h not_unsigned_nil
  unfold next step
  dsimp only
  split
  · next hb =>
    refine seq_step hnil fun u => ?_
    show Unsigned (b :: u) ↔ Seq Fraction Exponent u
    rw [unsigned_cons]
    simp only [hb, ne_eq, not_true_eq_false, false_and, and_false, or_false, true_and]
  next hzero =>
  split
  · next hb =>
    refine seq_step hnil fun u => ?_
    show Unsigned (b :: u) ↔ Seq Digits (Seq Fraction Exponent) u
    rw [unsigned_cons]
    simp only [hb, hzero, ne_eq, not_false_eq_true, false_and, false_or, true_and]
  · next hb =>
    refine seq_bad not_unsigned_nil fun u h => ?_
    rcases unsigned_cons.mp h with h | h
    · exact hzero h.1
    · exact hb h.1

theorem someDigits_seq {Q : Bytes → Prop} {u : Bytes} :
    Seq SomeDigits Q (b :: u) ↔ isDigit b ∧ Seq Digits Q u := by
  rw [seq_cons]
  simp only [not_someDigits_nil, false_and, false_or]
  constructor
  · rintro ⟨w, x, hw, hx, rfl⟩
    obtain ⟨hb, hw⟩ := someDigits_cons.mp hw
    exact ⟨hb, w, x, hw, hx, rfl⟩
  · rintro ⟨hb, w, x, hw, hx, rfl⟩
    exact ⟨w, x, someDigits_cons.mpr ⟨hb, hw⟩, hx, rfl⟩

theorem agrees_dot : Agrees Completes (.dot, s) b (next (.dot, s) b) := by
  have hnil : ¬Seq SomeDigits Exponent [] := fun h => not_someDigits_nil (seq_nil.mp h).1
  unfold next step
  dsimp only
  split
  · next hb =>
    exact seq_step (fun h => absurd h hnil) fun u => someDigits_seq.trans (and_iff_right hb)
  · next hb => exact seq_bad hnil fun u h => hb (someDigits_seq.mp h).1

theorem agrees_dot0 : Agrees Completes (.dot0, s) b (next (.dot0, s) b) := by
  unfold next step
  dsimp only
  split
  · next hb =>
    exact seq_step (fun _ => not_follows_of_digit hb) fun u =>
      digits_seq hb (not_exponent_of_digit hb)
  · next hb =>
    exact agrees_exponent (fun t => Iff.rfl) (seq_nil.mpr ⟨digits_nil, .none⟩)
      fun u => digits_seq_of_not hb

theorem agrees_e : Agrees Completes (.e, s) b (next (.e, s) b) := by
  have hnil : SignedDigits [] → follows b = false := fun h => absurd h not_signedDigits_nil
  unfold next step
  dsimp only
  split
  · next hb =>
    have hdigit : ¬isDigit b = true := by
      rcases hb with rfl | rfl <;> decide
    refine seq_step hnil fun u => ?_
    show SignedDigits (b :: u) ↔ SomeDigits u
    rw [signedDigits_cons]
    simp only [hdigit, hb, Bool.false_eq_true, false_and, false_or, true_and]
  next hsign =>
  split
  · next hb =>
    refine seq_step hnil fun u => ?_
    show SignedDigits (b :: u) ↔ Digits u
    rw [signedDigits_cons]
    simp only [hsign, hb, false_and, or_false, true_and]
  · next hb =>
    refine seq_bad not_signedDigits_nil fun u h => ?_
    rcases signedDigits_cons.mp h with h | h
    · exact hb h.1
    · exact hsign h.1

theorem agrees_eSign : Agrees Completes (.eSign, s) b (next (.eSign, s) b) := by
  unfold next step
  dsimp only
  split
  · next hb =>
    exact seq_step (fun h => absurd h not_someDigits_nil) fun u =>
      someDigits_cons.trans (and_iff_right hb)
  · next hb => exact seq_bad not_someDigits_nil fun u h => hb (someDigits_cons.mp h).1

theorem agrees_e0 : Agrees Completes (.e0, s) b (next (.e0, s) b) := by
  unfold next step
  dsimp only
  split
  · next hb =>
    exact seq_step (fun _ => not_follows_of_digit hb) fun u =>
      digits_cons.trans (and_iff_right hb)
  · next hb =>
    exact agrees_endValue (fun t => Iff.rfl) digits_nil fun u h => hb (digits_cons.mp h).1

theorem agrees_literal (name : String) (seen : Fin (word name).length) :
    Agrees Completes (.literal name seen, s) b (next (.literal name seen, s) b) := by
  have hdrop : (word name).drop seen = (word name).get seen :: (word name).drop (seen.val + 1) :=
    List.drop_eq_getElem_cons seen.isLt
  have hnil : ¬State.rest (.literal name seen) [] := fun h => by
    have h' : [] = (word name).drop seen := h
    rw [hdrop] at h'
    cases h'
  have hcons : ∀ u, State.rest (.literal name seen) (b :: u) ↔
      b = (word name).get seen ∧ u = (word name).drop (seen.val + 1) := fun u => by
    show b :: u = (word name).drop seen ↔ _
    rw [hdrop, List.cons.injEq]
  unfold next step
  dsimp only
  split
  · next hb => exact seq_bad hnil fun u h => hb ((hcons u).mp h).1
  next hb =>
  have hb : b = (word name).get seen := not_not.mp hb
  split
  · next hlt =>
    exact seq_step (fun h => absurd h hnil) fun u => (hcons u).trans (and_iff_right hb)
  · next hlt =>
    refine seq_step (fun h => absurd h hnil) fun u => ((hcons u).trans (and_iff_right hb)).trans ?_
    show _ ↔ u = []
    rw [List.drop_eq_nil_of_le (by omega)]

end step

end Rustorr.GoDecode
