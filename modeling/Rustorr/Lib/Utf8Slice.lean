import Mathlib.Data.List.Basic
import Mathlib.Algebra.BigOperators.Group.List.Basic
import Mathlib.Algebra.GroupWithZero.Nat

/-! Texts cut at byte offsets. A cut inside a character is an error, which is an answer of `none`. -/

namespace Utf8Slice

/-- `len` of a text. -/
def size (s : List Char) : ℕ := (s.map Char.utf8Size).sum

/-- `split_at`. -/
def splitAt : List Char → ℕ → Option (List Char × List Char)
  | s, 0 => some ([], s)
  | [], _ + 1 => none
  | c :: s, n + 1 =>
    if c.utf8Size ≤ n + 1 then (splitAt s (n + 1 - c.utf8Size)).map fun p => (c :: p.1, p.2)
    else none

/-- `&s[start..]`. -/
def sliceFrom (s : List Char) (start : ℕ) : Option (List Char) := (splitAt s start).map Prod.snd

/-- `&s[start..stop]`. -/
def slice (s : List Char) (start stop : ℕ) : Option (List Char) :=
  (splitAt s stop).bind fun p => sliceFrom p.1 start

/-- The offset of the first character that `p` holds of (`find`). -/
def find (p : Char → Bool) : List Char → Option ℕ
  | [] => none
  | c :: s => if p c then some 0 else (find p s).map (· + c.utf8Size)

variable {p : Char → Bool}

@[simp] theorem size_nil : size [] = 0 := rfl

@[simp] theorem size_cons (c : Char) (s : List Char) : size (c :: s) = c.utf8Size + size s :=
  List.sum_cons

theorem utf8Size_of_ascii {c : Char} (h : c < '\x80') : c.utf8Size = 1 := by
  unfold Char.utf8Size
  apply if_pos
  rw [UInt32.le_iff_toNat_le]
  exact Nat.le_of_lt_succ (UInt32.lt_iff_toNat_lt.mp h)

theorem size_append (a b : List Char) : size (a ++ b) = size a + size b := by
  unfold size
  rw [List.map_append, List.sum_append]

theorem size_eq_zero {s : List Char} : size s = 0 ↔ s = [] := by
  cases s with
  | nil => exact ⟨fun _ => rfl, fun _ => rfl⟩
  | cons c s =>
    have hpos := c.utf8Size_pos
    rw [size_cons]
    constructor
    · intro h
      omega
    · exact fun h => absurd h (List.cons_ne_nil c s)

theorem size_eq_length {s : List Char} (h : ∀ c ∈ s, c.utf8Size = 1) : size s = s.length := by
  induction s with
  | nil => rfl
  | cons c s ih =>
    obtain ⟨hc, hs⟩ := List.forall_mem_cons.mp h
    rw [size_cons, hc, ih hs, List.length_cons, Nat.add_comm]

theorem utf8Size_of_isDigit {c : Char} (h : c.isDigit = true) : c.utf8Size = 1 := by
  apply utf8Size_of_ascii
  apply UInt32.lt_iff_toNat_lt.mpr
  have hle : c.toNat ≤ '9'.toNat := (Char.isDigit_iff_toNat.mp h).2
  exact Nat.lt_of_le_of_lt hle (by decide)

theorem size_of_isDigit {s : List Char} (h : ∀ c ∈ s, c.isDigit = true) : size s = s.length :=
  size_eq_length fun c hc => utf8Size_of_isDigit (h c hc)

/-- A cut between two parts of a text. -/
theorem splitAt_append (a b : List Char) : splitAt (a ++ b) (size a) = some (a, b) := by
  induction a with
  | nil =>
    cases b with
    | nil => rfl
    | cons c b => rfl
  | cons c a ih =>
    have hpos := c.utf8Size_pos
    obtain ⟨n, hn⟩ : ∃ n, size (c :: a) = n + 1 := ⟨size (c :: a) - 1, by rw [size_cons]; omega⟩
    rw [hn, List.cons_append, splitAt]
    rw [size_cons] at hn
    rw [if_pos (by omega), show n + 1 - c.utf8Size = size a by omega, ih]
    rfl

theorem of_splitAt {s a b : List Char} {n : ℕ} (h : splitAt s n = some (a, b)) :
    s = a ++ b ∧ size a = n := by
  induction s generalizing n a with
  | nil =>
    cases n with
    | zero =>
      cases h
      exact ⟨rfl, rfl⟩
    | succ n => cases h
  | cons c s ih =>
    cases n with
    | zero =>
      cases h
      exact ⟨rfl, rfl⟩
    | succ n =>
      unfold splitAt at h
      split at h
      · next hle =>
        obtain ⟨p, hp, hpair⟩ := Option.map_eq_some_iff.mp h
        obtain ⟨rfl, rfl⟩ := Prod.mk.inj hpair
        obtain ⟨hs, hsize⟩ := ih hp
        rw [size_cons, hsize, hs]
        exact ⟨rfl, Nat.add_sub_cancel' hle⟩
      · cases h

theorem sliceFrom_append (a b : List Char) : sliceFrom (a ++ b) (size a) = some b := by
  unfold sliceFrom
  rw [splitAt_append]
  rfl

theorem slice_append (a b c : List Char) :
    slice (a ++ b ++ c) (size a) (size (a ++ b)) = some b := by
  unfold slice
  rw [splitAt_append, Option.bind_some, sliceFrom_append]

/-- A cut behind a part of a text is one of what follows the part. -/
theorem splitAt_later (a s : List Char) (n : ℕ) :
    splitAt (a ++ s) (size a + n) = (splitAt s n).map fun p => (a ++ p.1, p.2) := by
  induction a with
  | nil =>
    rw [size_nil, Nat.zero_add]
    exact Option.map_id'.symm
  | cons c a ih =>
    have hpos := c.utf8Size_pos
    obtain ⟨m, hm⟩ : ∃ m, size (c :: a) + n = m + 1 := ⟨size (c :: a) + n - 1, by rw [size_cons]; omega⟩
    have hrest : m + 1 - c.utf8Size = size a + n := by
      rw [← hm, size_cons]
      omega
    rw [hm, List.cons_append, splitAt, hrest, ih, Option.map_map]
    apply if_pos
    rw [← hm, size_cons]
    omega

theorem slice_later (a s : List Char) (start stop : ℕ) :
    slice (a ++ s) (size a + start) (size a + stop) = slice s start stop := by
  unfold slice sliceFrom
  rw [splitAt_later]
  cases splitAt s stop with
  | none => rfl
  | some p =>
    rw [Option.map_some, Option.bind_some, Option.bind_some, splitAt_later, Option.map_map]
    rfl

/-- A slice at the beginning. -/
theorem append_of_slice {s piece : List Char} {stop : ℕ} (h : slice s 0 stop = some piece) :
    ∃ rest, s = piece ++ rest := by
  unfold slice at h
  obtain ⟨p, hp, h⟩ := Option.bind_eq_some_iff.mp h
  obtain ⟨hs, -⟩ := of_splitAt hp
  have hall : sliceFrom p.1 0 = some p.1 := sliceFrom_append [] p.1
  rw [hall, Option.some_inj] at h
  rw [← h]
  exact ⟨p.2, hs⟩

/-- A slice is as long as the range it is taken at. -/
theorem size_of_slice {s piece : List Char} {start stop : ℕ} (h : slice s start stop = some piece) :
    size piece = stop - start := by
  unfold slice sliceFrom at h
  obtain ⟨p, hp, h⟩ := Option.bind_eq_some_iff.mp h
  obtain ⟨q, hq, rfl⟩ := Option.map_eq_some_iff.mp h
  obtain ⟨-, hstop⟩ := of_splitAt hp
  obtain ⟨hparts, hstart⟩ := of_splitAt hq
  rw [hparts, size_append, hstart] at hstop
  exact Nat.eq_sub_of_add_eq' hstop

/-- The first character that `p` holds of follows those that it does not hold of. -/
theorem find_append {a : List Char} {d : Char} (ha : ∀ c ∈ a, p c = false) (hd : p d = true)
    (b : List Char) : find p (a ++ d :: b) = some (size a) := by
  induction a with
  | nil => exact if_pos hd
  | cons c a ih =>
    obtain ⟨hc, ha⟩ := List.forall_mem_cons.mp ha
    rw [List.cons_append, find, hc, if_neg Bool.false_ne_true, ih ha, Option.map_some, size_cons,
      Nat.add_comm]

theorem find_eq_none {s : List Char} : find p s = none ↔ ∀ c ∈ s, p c = false := by
  induction s with
  | nil => exact ⟨fun _ c hc => absurd hc List.not_mem_nil, fun _ => rfl⟩
  | cons c s ih =>
    rw [find, List.forall_mem_cons]
    cases hc : p c with
    | true => exact ⟨fun h => absurd h (Option.some_ne_none 0), fun h => absurd h.1 Bool.noConfusion⟩
    | false =>
      rw [if_neg Bool.false_ne_true, Option.map_eq_none_iff, ih]
      exact ⟨fun h => ⟨rfl, h⟩, fun h => h.2⟩

/-- What is found cuts the text in two. -/
theorem exists_of_find {s : List Char} {n : ℕ} (h : find p s = some n) :
    ∃ a d b, s = a ++ d :: b ∧ n = size a ∧ (∀ c ∈ a, p c = false) ∧ p d = true := by
  induction s generalizing n with
  | nil => cases h
  | cons c s ih =>
    rw [find] at h
    cases hc : p c with
    | true =>
      rw [hc, if_pos rfl] at h
      exact ⟨[], c, s, rfl, (Option.some.inj h).symm, fun c hc => absurd hc List.not_mem_nil, hc⟩
    | false =>
      rw [hc, if_neg Bool.false_ne_true] at h
      obtain ⟨m, hm, rfl⟩ := Option.map_eq_some_iff.mp h
      obtain ⟨a, d, b, rfl, rfl, ha, hd⟩ := ih hm
      refine ⟨c :: a, d, b, rfl, ?_, List.forall_mem_cons.mpr ⟨hc, ha⟩, hd⟩
      rw [size_cons, Nat.add_comm]

end Utf8Slice
