import Rustorr.Http.GoSteps

/-! `scan` recognises the grammar: its three kinds of answer are the three kinds of
input there are. -/

namespace Rustorr.GoDecode

open Scan (Seq seq_nil Recognises)
open Json

theorem closes_nil {s : List Parse} : Closes s [] ↔ s = [] := by
  constructor
  · intro h
    cases h
    rfl
  · rintro rfl
    exact .top

theorem closes_top {t : Bytes} : Closes [] t ↔ t = [] := by
  constructor
  · intro h
    cases h
    rfl
  · rintro rfl
    exact .top

theorem text_null : Text (word "null") :=
  ⟨[], word "null", space_nil, .literal (by simp), rfl⟩

theorem closes_live (s : List Parse) : ∃ t, Closes s t := by
  induction s with
  | nil => exact ⟨[], .top⟩
  | cons p s ih =>
    obtain ⟨t, ht⟩ := ih
    cases p with
    | objectKey => exact ⟨_, .memberValue text_null (.closeObject ht)⟩
    | objectValue => exact ⟨_, .closeObject ht⟩
    | arrayValue => exact ⟨_, .closeArray ht⟩

theorem rest_live (state : State) : ∃ u, state.rest u := by
  have hdigits : SomeDigits [ascii '0'] := .intro (by decide) digits_nil
  cases state with
  | beginValue | beginValueOrEmpty => exact ⟨_, text_null⟩
  | beginString | beginStringOrEmpty => exact ⟨_, [], _, space_nil, .intro .close, rfl⟩
  | endValue => exact ⟨[], rfl⟩
  | inString => exact ⟨_, .close⟩
  | inStringEsc => exact ⟨_, escape_cons.mpr (.inl ⟨(by decide : isEscaped (ascii 'n') = true), .close⟩)⟩
  | inStringEscU seen =>
    refine ⟨_, List.replicate (4 - seen) (ascii '0'), _, List.length_replicate, ?_, .close, rfl⟩
    intro b hb
    rw [List.eq_of_mem_replicate hb]
    decide
  | neg => exact ⟨_, [ascii '0'], [], .zero, seq_nil.mpr ⟨.none, .none⟩, rfl⟩
  | one => exact ⟨[], seq_nil.mpr ⟨digits_nil, seq_nil.mpr ⟨.none, .none⟩⟩⟩
  | zero => exact ⟨[], seq_nil.mpr ⟨.none, .none⟩⟩
  | dot => exact ⟨_, _, [], hdigits, .none, rfl⟩
  | dot0 => exact ⟨[], seq_nil.mpr ⟨digits_nil, .none⟩⟩
  | e => exact ⟨_, .unsigned hdigits⟩
  | eSign => exact ⟨_, hdigits⟩
  | e0 => exact ⟨[], digits_nil⟩
  | literal name seen => exact ⟨_, rfl⟩

theorem completes_live (c : State × List Parse) : ∃ t, Completes c t := by
  obtain ⟨state, stack⟩ := c
  obtain ⟨u, hu⟩ := rest_live state
  obtain ⟨r, hr⟩ := closes_live stack
  have hseq : Seq state.rest (Closes stack) (u ++ r) := ⟨u, r, hu, hr, rfl⟩
  cases state with
  | beginValueOrEmpty | beginStringOrEmpty => exact ⟨_, .inr hseq⟩
  | _ => exact ⟨_, hseq⟩

theorem recognises : Recognises next Completes where
  live := completes_live
  agrees := by
    rintro ⟨state, stack⟩ b
    cases state with
    | beginValue =>
      exact agrees_beginValue (fun _ => Iff.rfl) fun h => not_text_nil (seq_nil.mp h).1
    | beginValueOrEmpty => exact agrees_beginValueOrEmpty
    | beginStringOrEmpty => exact agrees_beginStringOrEmpty
    | beginString =>
      exact agrees_beginString (fun _ => Iff.rfl) fun h => not_key_nil (seq_nil.mp h).1
    | endValue => exact agrees_endValue (fun _ => Iff.rfl) rfl fun u h => nomatch h
    | inString => exact agrees_inString
    | inStringEsc => exact agrees_inStringEsc
    | inStringEscU seen => exact agrees_inStringEscU seen
    | neg => exact agrees_neg
    | one => exact agrees_one
    | zero => exact agrees_zero
    | dot => exact agrees_dot
    | dot0 => exact agrees_dot0
    | e => exact agrees_e
    | eSign => exact agrees_eSign
    | e0 => exact agrees_e0
    | literal name seen => exact agrees_literal name seen

/-- The loop of `scan` is the run of the scanner, whatever it has read before. -/
theorem scanFrom_eq (input : Bytes) (state : State) (stack : List Parse) (started : Bool)
    (index : ℕ) : scanFrom state stack started index input =
      match Scan.run next (state, stack) input with
      | .taken n => .ok (index + n)
      | .bad e => .error e
      | .ended c => atEnd c.1 c.2 (started || input.any fun b => !isSpace b)
          (index + input.length) := by
  induction input generalizing state stack started index with
  | nil =>
    show atEnd state stack started index = atEnd state stack (started || false) index
    rw [Bool.or_false]
  | cons b input ih =>
    have hgo : ∀ next' stack', scanFrom next' stack' (started || !isSpace b) (index + 1) input =
        match (Scan.run next (next', stack') input).after with
        | .taken n => .ok (index + n)
        | .bad e => .error e
        | .ended c => atEnd c.1 c.2 (started || (b :: input).any fun b => !isSpace b)
            (index + (b :: input).length) := by
      intro next' stack'
      rw [ih]
      cases Scan.run next (next', stack') input with
      | taken n =>
        show Except.ok (index + 1 + n) = .ok (index + (n + 1))
        rw [Nat.add_assoc, Nat.add_comm 1 n]
      | bad e => rfl
      | ended c =>
        show atEnd c.1 c.2 _ _ = atEnd c.1 c.2 _ _
        rw [List.any_cons, List.length_cons, Bool.or_assoc, Nat.add_assoc,
          Nat.add_comm 1 input.length]
    unfold scanFrom Scan.run next answer
    dsimp only
    cases step state b (isSpace b) stack with
    | error e => rfl
    | ok result =>
      obtain ⟨kind, stack'⟩ := result
      cases kind with
      | «continue» next' => exact hgo next' stack'
      | closed =>
        dsimp only
        cases stack' with
        | nil => rfl
        | cons p stack' => exact hgo .endValue (p :: stack')
      | topEnd => rfl

theorem completes_start {t : Bytes} : Completes (.beginValue, []) t ↔ Text t := by
  constructor
  · rintro ⟨u, r, hu, hr, rfl⟩
    rw [closes_top.mp hr, List.append_nil]
    exact hu
  · exact fun h => ⟨t, [], h, .top, (List.append_nil t).symm⟩

/-- The states in which a value may have ended. -/
def State.final : State → Bool
  | .endValue | .one | .zero | .dot0 | .e0 => true
  | _ => false

theorem rest_nil (state : State) : state.rest [] ↔ state.final = true := by
  have hfalse : ∀ {P : Prop}, ¬P → (P ↔ false = true) := fun h => iff_of_false h Bool.false_ne_true
  have htrue : ∀ {P : Prop}, P → (P ↔ true = true) := fun h => iff_of_true h rfl
  cases state with
  | beginValue | beginValueOrEmpty => exact hfalse not_text_nil
  | beginString | beginStringOrEmpty => exact hfalse not_key_nil
  | endValue => exact htrue rfl
  | inString => exact hfalse not_chars_nil
  | inStringEsc => exact hfalse not_escape_nil
  | inStringEscU seen =>
    have hlt := seen.isLt
    refine hfalse fun h => ?_
    have h' : HexChars (4 - seen.val) [] := h
    rw [show 4 - seen.val = (3 - seen.val) + 1 by omega] at h'
    exact not_hexChars_nil h'
  | neg => exact hfalse not_unsigned_nil
  | one => exact htrue (seq_nil.mpr ⟨digits_nil, seq_nil.mpr ⟨.none, .none⟩⟩)
  | zero => exact htrue (seq_nil.mpr ⟨.none, .none⟩)
  | dot => exact hfalse fun h => not_someDigits_nil (seq_nil.mp h).1
  | dot0 => exact htrue (seq_nil.mpr ⟨digits_nil, .none⟩)
  | e => exact hfalse not_signedDigits_nil
  | eSign => exact hfalse not_someDigits_nil
  | e0 => exact htrue digits_nil
  | literal name seen =>
    refine hfalse fun h => ?_
    have h' : [] = (word name).drop seen := h
    have hlt := seen.isLt
    have hlen := congrArg List.length h'
    rw [List.length_drop] at hlen
    simp only [List.length_nil] at hlen
    omega

theorem completes_nil (c : State × List Parse) :
    Completes c [] ↔ c.1.final = true ∧ c.2.isEmpty = true := by
  obtain ⟨state, stack⟩ := c
  have hseq : Seq state.rest (Closes stack) [] ↔ state.final = true ∧ stack.isEmpty = true := by
    rw [seq_nil, rest_nil, closes_nil, List.isEmpty_iff]
  have hend : ∀ {close : UInt8}, ¬Seq Space
      (fun u => ∃ r, u = close :: r ∧ Closes stack.tail r) [] := fun h => by
    obtain ⟨-, r, hr, -⟩ := seq_nil.mp h
    cases hr
  cases state with
  | beginValueOrEmpty | beginStringOrEmpty => exact (or_iff_right hend).trans hseq
  | _ => exact hseq

theorem endValue_error {b : UInt8} {space : Bool} {stack : List Parse} {e : String}
    (h : endValue b space stack = .error e) : ∃ context, e = invalid b context := by
  unfold endValue close at h
  repeat' split at h
  all_goals first | cases h; exact ⟨_, rfl⟩ | cases h

theorem beginValue_error {b : UInt8} {space : Bool} {stack : List Parse} {e : String}
    (h : beginValue b space stack = .error e) : ∃ context, e = invalid b context := by
  unfold beginValue at h
  repeat' split at h
  all_goals first | cases h; exact ⟨_, rfl⟩ | cases h

theorem beginString_error {b : UInt8} {space : Bool} {stack : List Parse} {e : String}
    (h : beginString b space stack = .error e) : ∃ context, e = invalid b context := by
  unfold beginString at h
  repeat' split at h
  all_goals first | cases h; exact ⟨_, rfl⟩ | cases h

theorem exponent_error {b : UInt8} {space : Bool} {stack : List Parse} {e : String}
    (h : exponent b space stack = .error e) : ∃ context, e = invalid b context := by
  unfold exponent at h
  split at h
  · cases h
  · exact endValue_error h

theorem fraction_error {b : UInt8} {space : Bool} {stack : List Parse} {e : String}
    (h : fraction b space stack = .error e) : ∃ context, e = invalid b context := by
  unfold fraction at h
  split at h
  · cases h
  · exact exponent_error h

/-- Every error of a step names the byte it stopped at. -/
theorem step_error {state : State} {b : UInt8} {space : Bool} {stack : List Parse} {e : String}
    (h : step state b space stack = .error e) : ∃ context, e = invalid b context := by
  unfold step close at h
  cases state with
  | beginValue => exact beginValue_error h
  | beginString => exact beginString_error h
  | endValue => exact endValue_error h
  | zero => exact fraction_error h
  | _ =>
    dsimp only at h
    repeat' split at h
    all_goals first
      | exact beginValue_error h
      | exact beginString_error h
      | exact endValue_error h
      | exact exponent_error h
      | exact fraction_error h
      | cases h; exact ⟨_, rfl⟩
      | cases h

theorem invalid_ne {b : UInt8} {context : List Char} :
    invalid b context ≠ "EOF" ∧ invalid b context ≠ "unexpected EOF" := by
  have hfirst : (invalid b context).toList.head? = some 'i' := by
    unfold invalid
    rw [String.toList_ofList]
    rfl
  constructor <;> intro h <;> rw [h] at hfirst <;> exact absurd hfirst (by decide)

theorem run_error {input : Bytes} {c : State × List Parse} {e : String}
    (h : Scan.run next c input = .bad e) : ∃ b context, e = invalid b context := by
  induction input generalizing c with
  | nil => cases h
  | cons b input ih =>
    unfold Scan.run at h
    cases hnext : next c b with
    | go c' =>
      rw [hnext] at h
      dsimp only at h
      cases hrun : Scan.run next c' input with
      | taken n =>
        rw [hrun] at h
        cases h
      | ended c'' =>
        rw [hrun] at h
        cases h
      | bad e' =>
        rw [hrun] at h
        cases h
        exact ih hrun
    | last =>
      rw [hnext] at h
      cases h
    | stop =>
      rw [hnext] at h
      cases h
    | bad e' =>
      rw [hnext] at h
      cases h
      unfold next at hnext
      cases hstep : step c.1 b (isSpace b) c.2 with
      | error e'' =>
        rw [hstep] at hnext
        cases hnext
        obtain ⟨context, rfl⟩ := step_error hstep
        exact ⟨b, context, rfl⟩
      | ok result =>
        obtain ⟨kind, stack⟩ := result
        rw [hstep] at hnext
        cases kind with
        | «continue» state => cases hnext
        | closed =>
          unfold answer at hnext
          dsimp only at hnext
          split at hnext <;> cases hnext
        | topEnd => cases hnext

/-- Spaces before the value change nothing. -/
theorem run_spaces {input : Bytes} (h : Space input) (stack : List Parse) :
    Scan.run next (.beginValue, stack) input = .ended (.beginValue, stack) := by
  induction input with
  | nil => rfl
  | cons b input ih =>
    obtain ⟨hb, hinput⟩ := space_cons.mp h
    have hnext : next (.beginValue, stack) b = .go (.beginValue, stack) := by
      unfold next step beginValue
      dsimp only
      rw [if_pos hb]
      rfl
    unfold Scan.run
    rw [hnext]
    dsimp only
    rw [ih hinput]
    rfl

theorem started_iff {input : Bytes} : (input.any fun b => !isSpace b) = false ↔ Space input := by
  unfold Space
  simp only [List.any_eq_false, Bool.not_eq_true', Bool.not_eq_false]

theorem scan_spaces {input : Bytes} (h : Space input) : scan input = .error "EOF" := by
  rw [scan, scanFrom_eq, run_spaces h, started_iff.mpr h]
  rfl

/-- What the end of the input answers. -/
theorem atEnd_eq (state : State) (stack : List Parse) (started : Bool) (length : ℕ)
    (hstarted : started = false → state = .beginValue) :
    atEnd state stack started length = if state.final && stack.isEmpty then .ok length
      else .error (if started then "unexpected EOF" else "EOF") := by
  cases started with
  | false =>
    rw [hstarted rfl]
    rfl
  | true => cases state <;> cases stack <;> rfl

/-- The answer of `scan` tells which of three kinds the input is of. -/
theorem scan_cases (input : Bytes) :
    (∃ n, scan input = .ok n ∧ Scan.Begins Text input n) ∨
      (∃ message, scan input = .error message ∧ Scan.Cut Text input ∧
        (message = "EOF" ∧ Space input ∨ message = "unexpected EOF" ∧ ¬Space input)) ∨
      ∃ b context, scan input = .error (invalid b context) ∧
        (∀ n, ¬Scan.Begins Text input n) ∧ ¬Scan.Cut Text input := by
  have hbegins : ∀ n, Scan.Begins (Completes (.beginValue, [])) input n ↔ Scan.Begins Text input n :=
    Scan.begins_congr (fun _ => completes_start) input
  have hcut : Scan.Cut (Completes (.beginValue, [])) input ↔ Scan.Cut Text input :=
    Scan.cut_congr (fun _ => completes_start) input
  have hscan := scanFrom_eq input .beginValue [] false 0
  cases hrun : Scan.run next (.beginValue, []) input with
  | taken n =>
    refine .inl ⟨n, ?_, (hbegins n).mp (recognises.begins_of_taken hrun)⟩
    rw [hrun] at hscan
    dsimp only at hscan
    rw [scan, hscan, Nat.zero_add]
  | bad e =>
    obtain ⟨b, context, rfl⟩ := run_error hrun
    obtain ⟨hnone, hnot⟩ := recognises.of_bad hrun
    rw [hrun] at hscan
    exact .inr (.inr ⟨b, context, hscan, fun n h => hnone n ((hbegins n).mpr h),
      fun h => hnot (hcut.mpr h)⟩)
  | ended c =>
    have hstarted : (input.any fun b => !isSpace b) = false → c.1 = .beginValue := fun h => by
      rw [run_spaces (started_iff.mp h)] at hrun
      cases hrun
      rfl
    rw [hrun] at hscan
    dsimp only at hscan
    rw [Bool.false_or, atEnd_eq _ _ _ _ hstarted, Nat.zero_add] at hscan
    obtain ⟨hdone, hmore⟩ := recognises.of_ended hrun
    by_cases hfinal : (c.1.final && c.2.isEmpty) = true
    · rw [if_pos hfinal] at hscan
      have hnil := (completes_nil c).mpr (Bool.and_eq_true_iff.mp hfinal)
      exact .inl ⟨_, hscan, (hbegins _).mp (hdone hnil)⟩
    · rw [if_neg hfinal] at hscan
      have hnil : ¬Completes c [] := fun h =>
        hfinal (Bool.and_eq_true_iff.mpr ((completes_nil c).mp h))
      refine .inr (.inl ⟨_, hscan, hcut.mp (hmore hnil), ?_⟩)
      cases hany : input.any fun b => !isSpace b with
      | false => exact .inl ⟨rfl, started_iff.mp hany⟩
      | true =>
        refine .inr ⟨rfl, fun hspace => ?_⟩
        rw [started_iff.mpr hspace] at hany
        cases hany

/-- `scan` answers the length of the value that begins its input, an early end
where the input is only the beginning of a text, and a syntax error otherwise. -/
theorem scan_spec (input : Bytes) :
    (∀ n, scan input = .ok n ↔ Scan.Begins Text input n) ∧
      (scan input = .error "EOF" ∨ scan input = .error "unexpected EOF" ↔ Scan.Cut Text input) ∧
      (scan input = .error "EOF" ↔ Space input) ∧
      ((∃ b context, scan input = .error (invalid b context)) ↔
        (∀ n, ¬Scan.Begins Text input n) ∧ ¬Scan.Cut Text input) := by
  have hmessage : ("EOF" : String) ≠ "unexpected EOF" := by decide
  rcases scan_cases input with ⟨n, hscan, hbegins⟩ | ⟨message, hscan, hcut, hspace⟩ |
    ⟨b, context, hscan, hnone, hnot⟩
  · have hcut := Scan.not_begins_and_cut hbegins
    have hspace : ¬Space input := fun h => by
      rw [scan_spaces h] at hscan
      cases hscan
    refine ⟨fun m => ⟨fun h => ?_, fun h => ?_⟩, iff_of_false ?_ hcut, iff_of_false ?_ hspace,
      iff_of_false ?_ fun h => h.1 n hbegins⟩
    · rw [hscan] at h
      cases h
      exact hbegins
    · rw [hscan, hbegins.unique h]
    · rw [hscan]
      rintro (h | h) <;> cases h
    · rw [hscan]
      exact nofun
    · rw [hscan]
      rintro ⟨b, context, h⟩
      cases h
  · have hbegins : ∀ n, ¬Scan.Begins Text input n := fun n h => Scan.not_begins_and_cut h hcut
    refine ⟨fun m => iff_of_false ?_ (hbegins m), iff_of_true ?_ hcut, ?_,
      iff_of_false ?_ fun h => h.2 hcut⟩
    · rw [hscan]
      exact nofun
    · rw [hscan]
      rcases hspace with ⟨rfl, -⟩ | ⟨rfl, -⟩
      · exact .inl rfl
      · exact .inr rfl
    · rw [hscan]
      rcases hspace with ⟨rfl, h⟩ | ⟨rfl, h⟩
      · exact iff_of_true rfl h
      · exact iff_of_false (fun h => hmessage (Except.error.inj h).symm) h
    · rw [hscan]
      rintro ⟨b, context, h⟩
      rcases hspace with ⟨rfl, -⟩ | ⟨rfl, -⟩
      · exact invalid_ne.1 (Except.error.inj h).symm
      · exact invalid_ne.2 (Except.error.inj h).symm
  · refine ⟨fun m => iff_of_false ?_ (hnone m), iff_of_false ?_ hnot, iff_of_false ?_ fun h => ?_,
      iff_of_true ⟨b, context, hscan⟩ ⟨hnone, hnot⟩⟩
    · rw [hscan]
      exact nofun
    · rw [hscan]
      rintro (h | h)
      · exact invalid_ne.1 (Except.error.inj h)
      · exact invalid_ne.2 (Except.error.inj h)
    · rw [hscan]
      exact fun h => invalid_ne.1 (Except.error.inj h)
    · rw [scan_spaces h] at hscan
      exact invalid_ne.1 (Except.error.inj hscan).symm

/-- A number may end where it could also go on: the input is a text and the
beginning of a longer one. -/
theorem number_is_text_and_prefix :
    ¬∀ input : Bytes, (scan input = .error "EOF" ∨ scan input = .error "unexpected EOF") ↔
      ∃ t, t ≠ [] ∧ Text (input ++ t) := by
  intro h
  have hdigits : Digits [ascii '2'] := List.forall_mem_singleton.mpr (by decide)
  have hwhole : Whole [ascii '1', ascii '2'] := .digits (by decide) (by decide) hdigits
  have htext : Text ([ascii '1'] ++ [ascii '2']) :=
    ⟨[], _, space_nil, .number (.positive ⟨_, [], hwhole, seq_nil.mpr ⟨.none, .none⟩, rfl⟩), rfl⟩
  have hone : scan [ascii '1'] = .ok 1 := rfl
  rcases (h [ascii '1']).mpr ⟨[ascii '2'], List.cons_ne_nil _ _, htext⟩ with hscan | hscan
  · rw [hone] at hscan
    cases hscan
  · rw [hone] at hscan
    cases hscan

end Rustorr.GoDecode
