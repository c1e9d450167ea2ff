import Mathlib.Data.Nat.Digits.Lemmas
import Mathlib.Data.List.GetD
import Mathlib.Data.List.Nodup

/-! Numbers written with the most significant digit first, in any radix, with an
alphabet for the digits, and byte strings as such numbers. -/

namespace Radix

/-- The digits of a number, the most significant first. Zero has none. -/
def digits (radix n : ℕ) : List ℕ := (Nat.digits radix n).reverse

/-- `for digit: value = value * radix + digit`. -/
def value (radix : ℕ) (ds : List ℕ) : ℕ := ds.foldl (fun value digit => value * radix + digit) 0

theorem value_eq_ofDigits (radix : ℕ) (ds : List ℕ) :
    value radix ds = Nat.ofDigits radix ds.reverse := by
  unfold value
  rw [Nat.ofDigits_eq_foldr, List.foldr_reverse]
  congr 1
  funext value digit
  rw [Nat.cast_id, Nat.add_comm, Nat.mul_comm]

theorem value_digits (radix n : ℕ) : value radix (digits radix n) = n := by
  rw [value_eq_ofDigits, digits, List.reverse_reverse, Nat.ofDigits_digits]

/-- Digits without a leading zero are the digits of their number. -/
theorem digits_value {radix : ℕ} (hradix : 1 < radix) {ds : List ℕ} (hlt : ∀ d ∈ ds, d < radix)
    (hhead : ∀ d ∈ ds.head?, d ≠ 0) : digits radix (value radix ds) = ds := by
  unfold digits
  rw [value_eq_ofDigits, Nat.digits_ofDigits radix hradix, List.reverse_reverse]
  · exact fun d hd => hlt d (List.mem_reverse.mp hd)
  · intro hne
    rw [List.getLast_reverse]
    exact hhead _ (List.head?_eq_some_head _)

theorem lt_of_mem_digits {radix n d : ℕ} (hradix : 1 < radix) (hd : d ∈ digits radix n) :
    d < radix := Nat.digits_lt_base hradix (List.mem_reverse.mp hd)

/-- Digits as letters of an alphabet. -/
def letters {A : Type} [Inhabited A] (alphabet : List A) (ds : List ℕ) : List A :=
  ds.map fun d => alphabet.getD d default

/-- Letters as digits, if all are of the alphabet. -/
def ofLetters {A : Type} [DecidableEq A] (alphabet text : List A) : Option (List ℕ) :=
  text.mapM alphabet.idxOf?

theorem mem_of_ofLetters {A : Type} [DecidableEq A] {alphabet text : List A} {ds : List ℕ}
    (h : ofLetters alphabet text = some ds) : ∀ a ∈ text, a ∈ alphabet := by
  induction text generalizing ds with
  | nil => exact fun a ha => absurd ha List.not_mem_nil
  | cons b text ih =>
    unfold ofLetters at h ih
    rw [List.mapM_cons] at h
    obtain ⟨d, hd, hrest⟩ := Option.bind_eq_some_iff.mp h
    obtain ⟨rest, htext, -⟩ := Option.bind_eq_some_iff.mp hrest
    intro a ha
    rcases List.mem_cons.mp ha with rfl | ha
    · obtain ⟨hlt, heq, -⟩ := List.idxOf?_eq_some_iff.mp hd
      rw [← heq]
      exact List.getElem_mem hlt
    · exact ih htext a ha

theorem ofLetters_letters {A : Type} [Inhabited A] [DecidableEq A] {alphabet : List A}
    (hnodup : alphabet.Nodup) {ds : List ℕ} (hlt : ∀ d ∈ ds, d < alphabet.length) :
    ofLetters alphabet (letters alphabet ds) = some ds := by
  induction ds with
  | nil => rfl
  | cons d ds ih =>
    obtain ⟨hd, hds⟩ := List.forall_mem_cons.mp hlt
    have hletter : alphabet.getD d default = alphabet[d] := List.getD_eq_getElem _ _ hd
    have hidx : alphabet.idxOf? (alphabet.getD d default) = some d := by
      rw [hletter, List.idxOf?_eq_some_iff]
      refine ⟨hd, rfl, fun j hj heq => ?_⟩
      exact absurd (hnodup.getElem_inj_iff.mp heq) (Nat.ne_of_lt hj)
    have hih := ih hds
    unfold ofLetters letters at hih ⊢
    rw [List.map_cons, List.mapM_cons, hidx, hih]
    rfl

/-! ### Byte strings -/

def ofBytes (bytes : List UInt8) : ℕ := value 256 (bytes.map UInt8.toNat)

/-- The bytes of a number, with one byte for zero. -/
def toBytes (n : ℕ) : List UInt8 := if n = 0 then [0] else (digits 256 n).map UInt8.ofNat

theorem toBytes_ofBytes {first : UInt8} {rest : List UInt8} (hfirst : first ≠ 0) :
    toBytes (ofBytes (first :: rest)) = first :: rest := by
  have hzero : first.toNat ≠ 0 := fun h => hfirst (UInt8.toNat_inj.mp h)
  have hdigits : digits 256 (ofBytes (first :: rest)) = (first :: rest).map UInt8.toNat := by
    refine digits_value (by decide) (fun d hd => ?_) fun d hd => ?_
    · obtain ⟨b, -, rfl⟩ := List.mem_map.mp hd
      exact b.toNat_lt
    · cases hd
      exact hzero
  have hne : ofBytes (first :: rest) ≠ 0 := fun h => by
    rw [h] at hdigits
    cases hdigits
  unfold toBytes
  rw [if_neg hne, hdigits, List.map_map]
  have hid : UInt8.ofNat ∘ UInt8.toNat = id := by
    funext b
    exact UInt8.ofNat_toNat
  rw [hid, List.map_id]

end Radix
