import Mathlib.Data.List.Infix
import Mathlib.Tactic.Common

/-! Sources that are read piece by piece, with pieces of any size, and what is streamed out
of them. -/

namespace Rustorr.Reads

/-- A read from a state gives at most so many bytes and the state after them, or it fails. -/
structure Source (σ ε : Type) where
  read : σ → ℕ → Except ε (List UInt8 × σ)

variable {σ ε : Type} {source : Source σ ε} {rest : σ → List UInt8}

/-- `rest` is what is left to be read in a state, in whatever pieces it comes. -/
structure Holds (source : Source σ ε) (rest : σ → List UInt8) : Prop where
  split : ∀ {s s' n bytes}, source.read s n = .ok (bytes, s') → rest s = bytes ++ rest s'
  bounded : ∀ {s s' n bytes}, source.read s n = .ok (bytes, s') → bytes.length ≤ n
  ended : ∀ {s s' n}, source.read s n = .ok ([], s') → n ≠ 0 → rest s = []

/-- Bytes in memory, of which as many come as are asked for. -/
def Source.ofBytes : Source (List UInt8) ε where
  read bytes n := .ok (bytes.take n, bytes.drop n)

theorem holds_ofBytes : Holds (Source.ofBytes : Source (List UInt8) ε) id where
  split h := by
    cases h
    exact (List.take_append_drop _ _).symm
  bounded h := by
    cases h
    exact List.length_take_le _ _
  ended := by
    intro s s' n h hn
    have hout : (s.take n, s.drop n) = ([], s') := Except.ok.inj h
    exact (List.take_eq_nil_iff.mp (Prod.mk.inj hout).1).resolve_left hn

/-- `take(limit)`: no more than so many bytes of a source, and it is not asked for more. -/
def Source.take (source : Source σ ε) : Source (σ × ℕ) ε where
  read s n :=
    if s.2 = 0 then .ok ([], s)
    else do
      let (bytes, s') ← source.read s.1 (min n s.2)
      .ok (bytes, s', s.2 - bytes.length)

theorem take_cases {s s' : σ × ℕ} {n : ℕ} {bytes : List UInt8} (h : source.take.read s n = .ok (bytes, s')) :
    (s.2 = 0 ∧ bytes = [] ∧ s' = s) ∨
      (s.2 ≠ 0 ∧ source.read s.1 (min n s.2) = .ok (bytes, s'.1) ∧ s'.2 = s.2 - bytes.length) := by
  unfold Source.take at h
  simp only at h
  split at h
  · next hzero =>
    cases h
    exact Or.inl ⟨hzero, rfl, rfl⟩
  · next hpos =>
    cases hread : source.read s.1 (min n s.2) with
    | error e =>
      rw [hread] at h
      cases h
    | ok out =>
      rw [hread] at h
      cases h
      exact Or.inr ⟨hpos, rfl, rfl⟩

theorem Holds.take (h : Holds source rest) : Holds source.take fun s => (rest s.1).take s.2 where
  split := by
    intro s s' n bytes hread
    rcases take_cases hread with ⟨-, rfl, rfl⟩ | ⟨-, hread, hleft⟩
    · rfl
    · have hbounded := h.bounded hread
      rw [h.split hread, hleft, List.take_append, List.take_of_length_le (by omega)]
  bounded := by
    intro s s' n bytes hread
    rcases take_cases hread with ⟨-, rfl, -⟩ | ⟨-, hread, -⟩
    · exact Nat.zero_le n
    · exact (h.bounded hread).trans (min_le_left n s.2)
  ended := by
    intro s s' n hread hn
    rcases take_cases hread with ⟨hzero, -, -⟩ | ⟨hpos, hread, -⟩
    · rw [hzero, List.take_zero]
    · rw [h.ended hread (by omega), List.take_nil]

/-! ### What is streamed -/

/-- Pieces one after the other, up to the end or an error. -/
abbrev Streamed (ε : Type) := List (List UInt8) × Except ε Unit

namespace Streamed

variable {a b : Streamed ε} {bytes bytes' : List UInt8}

def data (a : Streamed ε) : List UInt8 := a.1.flatten

def piece (bytes : List UInt8) : Streamed ε := ([bytes], .ok ())

def failed (e : ε) : Streamed ε := ([], .error e)

/-- One stream and then, if it got to its end, the other. -/
def append (a b : Streamed ε) : Streamed ε :=
  match a.2 with
  | .error _ => a
  | .ok () => (a.1 ++ b.1, b.2)

/-- All of these bytes, or the start of them where a read failed. -/
def Delivers (a : Streamed ε) (bytes : List UInt8) : Prop :=
  a.data <+: bytes ∧ (a.2 = .ok () → a.data = bytes)

theorem delivers_piece (bytes : List UInt8) : (piece bytes : Streamed ε).Delivers bytes := by
  have hdata : (piece bytes : Streamed ε).data = bytes := List.flatten_singleton
  exact ⟨hdata.symm ▸ List.prefix_refl bytes, fun _ => hdata⟩

theorem delivers_failed (e : ε) (bytes : List UInt8) : (failed e).Delivers bytes :=
  ⟨List.nil_prefix, fun h => nomatch h⟩

theorem Delivers.append (h : a.Delivers bytes) (h' : b.Delivers bytes') : (a.append b).Delivers (bytes ++ bytes') := by
  obtain ⟨pieces, ending⟩ := a
  cases ending with
  | error e => exact ⟨h.1.trans (List.prefix_append bytes bytes'), fun hok => nomatch hok⟩
  | ok u =>
    have hdata : (Streamed.append (pieces, .ok u) b).data = bytes ++ b.data := by
      rw [← h.2 rfl]
      exact List.flatten_append
    constructor
    · rw [hdata]
      exact (List.prefix_append_right_inj bytes).mpr h'.1
    · intro hok
      rw [hdata, h'.2 hok]

/-- A stream that got to its end delivers one thing only. -/
theorem Delivers.unique (h : a.Delivers bytes) (h' : a.Delivers bytes') (hok : a.2 = .ok ()) : bytes = bytes' :=
  (h.2 hok).symm.trans (h'.2 hok)

theorem Delivers.length_le (h : a.Delivers bytes) : a.data.length ≤ bytes.length := h.1.length_le

end Streamed

/-- The loop that reads into a buffer until nothing comes, and passes each piece on. -/
def drain (source : Source σ ε) (size : ℕ) : ℕ → σ → Streamed ε
  | 0, _ => ([], .ok ())
  | rounds + 1, s =>
    match source.read s size with
    | .error e => Streamed.failed e
    | .ok ([], _) => ([], .ok ())
    | .ok (bytes, s') => ((Streamed.piece bytes).append (drain source size rounds s'))

/-- A round for every byte, and one to see the end, are enough. -/
theorem drain_delivers (h : Holds source rest) {size rounds : ℕ} (hsize : size ≠ 0) {s : σ}
    (hrounds : (rest s).length < rounds) : (drain source size rounds s).Delivers (rest s) := by
  induction rounds generalizing s with
  | zero => exact absurd hrounds (Nat.not_lt_zero _)
  | succ rounds ih =>
    unfold drain
    cases hread : source.read s size with
    | error e => exact Streamed.delivers_failed e _
    | ok out =>
      obtain ⟨bytes, s'⟩ := out
      have hsplit := h.split hread
      cases bytes with
      | nil =>
        rw [h.ended hread hsize]
        exact ⟨List.prefix_refl [], fun _ => rfl⟩
      | cons b bytes =>
        rw [hsplit]
        refine (Streamed.delivers_piece _).append (ih ?_)
        rw [hsplit, List.length_append, List.length_cons] at hrounds
        omega

/-- What is left of a source that is read up to a limit. -/
theorem drain_take_delivers (h : Holds source rest) {size limit : ℕ} (hsize : size ≠ 0) (s : σ) :
    (drain source.take size (limit + 1) (s, limit)).Delivers ((rest s).take limit) := by
  refine drain_delivers h.take hsize ?_
  show ((rest s).take limit).length < limit + 1
  rw [List.length_take]
  omega

end Rustorr.Reads
