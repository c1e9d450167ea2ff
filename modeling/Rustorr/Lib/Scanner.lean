import Mathlib.Logic.Basic
import Mathlib.Data.Nat.Notation

/-! Scanners that read a text unit by unit and say where it ends. A scanner
recognises a family of languages, one for each of its configurations, when every
answer it gives is the one the language of the configuration asks for. -/

namespace Scan

variable {B C E : Type}

/-- Texts that begin with one part and go on with another. -/
def Seq (P Q : List B → Prop) (t : List B) : Prop := ∃ u r, P u ∧ Q r ∧ t = u ++ r

theorem seq_nil {P Q : List B → Prop} : Seq P Q [] ↔ P [] ∧ Q [] := by
  constructor
  · rintro ⟨u, r, hu, hr, h⟩
    obtain ⟨rfl, rfl⟩ := List.append_eq_nil_iff.mp h.symm
    exact ⟨hu, hr⟩
  · rintro ⟨hu, hr⟩
    exact ⟨[], [], hu, hr, rfl⟩

/-- The first unit belongs to the second part if the first part is empty. -/
theorem seq_cons {P Q : List B → Prop} {b : B} {t : List B} :
    Seq P Q (b :: t) ↔ (P [] ∧ Q (b :: t)) ∨ Seq (fun u => P (b :: u)) Q t := by
  constructor
  · rintro ⟨u, r, hu, hr, h⟩
    cases u with
    | nil =>
      rw [List.nil_append] at h
      exact .inl ⟨hu, h ▸ hr⟩
    | cons b' u =>
      obtain ⟨rfl, rfl⟩ := List.cons.inj h
      exact .inr ⟨u, r, hu, hr, rfl⟩
  · rintro (⟨hu, hr⟩ | ⟨u, r, hu, hr, rfl⟩)
    · exact ⟨[], b :: t, hu, hr, rfl⟩
    · exact ⟨b :: u, r, hu, hr, rfl⟩

theorem seq_congr {P P' Q Q' : List B → Prop} (hP : ∀ u, P u ↔ P' u) (hQ : ∀ r, Q r ↔ Q' r)
    (t : List B) : Seq P Q t ↔ Seq P' Q' t := by
  unfold Seq
  simp only [hP, hQ]

theorem seq_assoc {P Q R : List B → Prop} {t : List B} :
    Seq (Seq P Q) R t ↔ Seq P (Seq Q R) t := by
  constructor
  · rintro ⟨_, r, ⟨p, q, hp, hq, rfl⟩, hr, rfl⟩
    exact ⟨p, q ++ r, hp, ⟨q, r, hq, hr, rfl⟩, List.append_assoc p q r⟩
  · rintro ⟨p, _, hp, ⟨q, r, hq, hr, rfl⟩, rfl⟩
    exact ⟨p ++ q, r, ⟨p, q, hp, hq, rfl⟩, hr, (List.append_assoc p q r).symm⟩

theorem seq_empty {Q : List B → Prop} {t : List B} : Seq (· = []) Q t ↔ Q t := by
  constructor
  · rintro ⟨u, r, rfl, hr, rfl⟩
    exact hr
  · exact fun h => ⟨[], t, rfl, h, rfl⟩

/-- What a scanner makes of one unit: it goes on, the text ends with the unit,
the text ended before it, or there is no such text. -/
inductive Next (C E : Type)
  | go (c : C)
  | last
  | stop
  | bad (e : E)

/-- The length of the text, the configuration in which the input ended, or the
error. -/
inductive Outcome (C E : Type)
  | taken (n : ℕ)
  | ended (c : C)
  | bad (e : E)

def Outcome.after : Outcome C E → Outcome C E
  | .taken n => .taken (n + 1)
  | o => o

variable (next : C → B → Next C E)

def run (c : C) : List B → Outcome C E
  | [] => .ended c
  | b :: t => match next c b with
    | .go c' => (run c' t).after
    | .last => .taken 1
    | .stop => .taken 0
    | .bad e => .bad e

/-- What the answer to a unit says of the texts of a configuration. -/
def Agrees (L : C → List B → Prop) (c : C) (b : B) : Next C E → Prop
  | .go c' => ∀ t, L c (b :: t) ↔ L c' t
  | .last => ∀ t, L c (b :: t) ↔ t = []
  | .stop => L c [] ∧ ∀ t, ¬L c (b :: t)
  | .bad _ => ¬L c [] ∧ ∀ t, ¬L c (b :: t)

/-- Every answer is right, and no configuration is without a text. -/
structure Recognises (L : C → List B → Prop) : Prop where
  agrees : ∀ c b, Agrees L c b (next c b)
  live : ∀ c, ∃ t, L c t

/-- A text at the beginning of the input that no following unit continues. -/
def Begins (L : List B → Prop) (input : List B) (n : ℕ) : Prop :=
  ∃ text rest, input = text ++ rest ∧ L text ∧ text.length = n ∧
    ∀ b rest', rest = b :: rest' → ∀ t, ¬L (text ++ b :: t)

/-- An input that a text has only begun with. -/
def Cut (L : List B → Prop) (input : List B) : Prop := ¬L input ∧ ∃ t, L (input ++ t)

variable {next} {L : C → List B → Prop} {c : C} {b : B} {t : List B}

theorem begins_zero {P : List B → Prop} {input : List B} :
    Begins P input 0 ↔ P [] ∧ ∀ b rest, input = b :: rest → ∀ t, ¬P (b :: t) := by
  constructor
  · rintro ⟨text, rest, rfl, htext, hlen, hstop⟩
    obtain rfl := List.length_eq_zero_iff.mp hlen
    exact ⟨htext, hstop⟩
  · rintro ⟨hnil, hstop⟩
    exact ⟨[], input, rfl, hnil, rfl, hstop⟩

theorem begins_succ {P : List B → Prop} {n : ℕ} :
    Begins P (b :: t) (n + 1) ↔ Begins (fun u => P (b :: u)) t n := by
  constructor
  · rintro ⟨text, rest, hinput, htext, hlen, hstop⟩
    cases text with
    | nil => cases hlen
    | cons b' text =>
      obtain ⟨rfl, rfl⟩ := List.cons.inj hinput
      exact ⟨text, rest, rfl, htext, Nat.succ.inj hlen, hstop⟩
  · rintro ⟨text, rest, rfl, htext, hlen, hstop⟩
    exact ⟨b :: text, rest, rfl, htext, congrArg Nat.succ hlen, hstop⟩

theorem begins_congr {P Q : List B → Prop} (h : ∀ u, P u ↔ Q u) (input : List B) (n : ℕ) :
    Begins P input n ↔ Begins Q input n := by
  unfold Begins
  simp only [h]

theorem cut_congr {P Q : List B → Prop} (h : ∀ u, P u ↔ Q u) (input : List B) :
    Cut P input ↔ Cut Q input := by
  unfold Cut
  simp only [h]

/-- Of two texts that begin an input the shorter one would be continued. -/
theorem Begins.length_le {P : List B → Prop} {input : List B} {m n : ℕ} (hm : Begins P input m)
    (hn : Begins P input n) : n ≤ m := by
  obtain ⟨short, rest, rfl, -, rfl, hstop⟩ := hm
  obtain ⟨long, rest', hinput, hlong, rfl, -⟩ := hn
  refine Nat.le_of_not_lt fun hlt => ?_
  obtain ⟨u, rfl⟩ : short <+: long :=
    List.prefix_of_prefix_length_le ⟨rest, rfl⟩ ⟨rest', hinput.symm⟩ (by omega)
  cases u with
  | nil =>
    rw [List.append_nil] at hlt
    exact Nat.lt_irrefl _ hlt
  | cons b u =>
    rw [List.append_assoc] at hinput
    exact hstop b (u ++ rest') (List.append_cancel_left hinput) u hlong

theorem Begins.unique {P : List B → Prop} {input : List B} {m n : ℕ} (hm : Begins P input m)
    (hn : Begins P input n) : m = n := Nat.le_antisymm (hn.length_le hm) (hm.length_le hn)

theorem not_begins_and_cut {P : List B → Prop} {input : List B} {n : ℕ} (h : Begins P input n) :
    ¬Cut P input := by
  obtain ⟨text, rest, rfl, htext, -, hstop⟩ := h
  rintro ⟨hnot, t, ht⟩
  cases rest with
  | nil =>
    rw [List.append_nil] at hnot
    exact hnot htext
  | cons b rest' =>
    apply hstop b rest' rfl (rest' ++ t)
    rwa [List.append_assoc] at ht

section outcomes

variable (h : Recognises next L)

include h

/-- What the outcome of a run says of its input. -/
theorem Recognises.run_spec (input : List B) (c : C) : match run next c input with
    | .taken n => Begins (L c) input n
    | .ended c' => ∀ t, L c (input ++ t) ↔ L c' t
    | .bad _ => (∀ n, ¬Begins (L c) input n) ∧ ¬Cut (L c) input := by
  induction input generalizing c with
  | nil => exact fun t => Iff.rfl
  | cons b input ih =>
    have hagrees := h.agrees c b
    unfold run
    cases hnext : next c b with
    | go c' =>
      have hL : ∀ t, L c (b :: t) ↔ L c' t := by rwa [hnext] at hagrees
      have hrest := ih c'
      dsimp only
      cases hrun : run next c' input with
      | taken n =>
        rw [hrun] at hrest
        exact begins_succ.mpr ((begins_congr hL input n).mpr hrest)
      | ended c'' =>
        rw [hrun] at hrest
        exact fun t => (hL (input ++ t)).trans (hrest t)
      | bad e =>
        rw [hrun] at hrest
        refine ⟨fun n hn => ?_, fun ⟨hnot, t, ht⟩ => ?_⟩
        · cases n with
          | zero =>
            -- the rest has a text, so the unit continues the empty one
            obtain ⟨t, ht⟩ := h.live c'
            exact (begins_zero.mp hn).2 b input rfl t ((hL t).mpr ht)
          | succ n => exact hrest.1 n ((begins_congr hL input n).mp (begins_succ.mp hn))
        · exact hrest.2 ⟨fun hinput => hnot ((hL input).mpr hinput), t, (hL (input ++ t)).mp ht⟩
    | last =>
      have hL : ∀ t, L c (b :: t) ↔ t = [] := by rwa [hnext] at hagrees
      refine begins_succ.mpr (begins_zero.mpr ⟨(hL []).mpr rfl, fun b' rest _ t ht => ?_⟩)
      cases (hL (b' :: t)).mp ht
    | stop =>
      rw [hnext] at hagrees
      obtain ⟨hnil, hnone⟩ := hagrees
      refine begins_zero.mpr ⟨hnil, fun b' rest hb t ht => ?_⟩
      obtain ⟨rfl, -⟩ := List.cons.inj hb
      exact hnone t ht
    | bad e =>
      rw [hnext] at hagrees
      obtain ⟨hnil, hnone⟩ := hagrees
      refine ⟨fun n hn => ?_, fun ⟨hnot, t, ht⟩ => hnone _ ht⟩
      obtain ⟨text, rest, hinput, htext, -, -⟩ := hn
      cases text with
      | nil => exact hnil htext
      | cons b' text =>
        obtain ⟨rfl, -⟩ := List.cons.inj hinput
        exact hnone text htext

theorem Recognises.begins_of_taken {input : List B} {n : ℕ} (hrun : run next c input = .taken n) :
    Begins (L c) input n := by
  have hspec := h.run_spec input c
  rwa [hrun] at hspec

theorem Recognises.of_ended {input : List B} {c' : C} (hrun : run next c input = .ended c') :
    (L c' [] → Begins (L c) input input.length) ∧ (¬L c' [] → Cut (L c) input) := by
  have hspec := h.run_spec input c
  rw [hrun] at hspec
  have hinput := hspec []
  rw [List.append_nil] at hinput
  constructor
  · intro hnil
    exact ⟨input, [], (List.append_nil input).symm, hinput.mpr hnil, rfl, nofun⟩
  · intro hnil
    obtain ⟨t, ht⟩ := h.live c'
    exact ⟨fun hin => hnil (hinput.mp hin), t, (hspec t).mpr ht⟩

theorem Recognises.of_bad {input : List B} {e : E} (hrun : run next c input = .bad e) :
    (∀ n, ¬Begins (L c) input n) ∧ ¬Cut (L c) input := by
  have hspec := h.run_spec input c
  rwa [hrun] at hspec

end outcomes

end Scan
