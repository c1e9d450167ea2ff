import Rustorr.Lib.Machine
import Mathlib.Data.List.Basic

/-! Line-oriented text: decimal numbers, splitting and joining, and the laws
by which a text written in pieces is read back. -/

namespace Text

/-- Texts are compared by their characters. -/
instance lawfulBEq_text : LawfulBEq (List Char) := inferInstance

/-- The decimal form of a number, without sign or leading zero. -/
def decimal (n : ℕ) : List Char := Nat.toDigits 10 n

/-- Unsigned decimal text: an optional plus, then at least one digit. -/
def parseU64 (s : List Char) : Option U64 :=
  let digits := match s with
    | '+' :: rest => rest
    | _ => s
  if digits ≠ [] ∧ digits.all Char.isDigit then
    let n := Nat.ofDigitChars 10 digits 0
    if h : n < 2 ^ 64 then some ⟨n, h⟩ else none
  else none

/-- The text before and after the first `c`. -/
def splitOnce (c : Char) : List Char → Option (List Char × List Char)
  | [] => none
  | d :: s => if d = c then some ([], s) else (splitOnce c s).map fun p => (d :: p.1, p.2)

def join (sep : Char) (parts : List (List Char)) : List Char := [sep].intercalate parts

/-- A terminated line may also end in a carriage return. -/
def stripReturn (line : List Char) : List Char :=
  if line.getLast? = some '\r' then line.dropLast else line

/-- Lines of a text; the last one needs no terminator. -/
def lines (text : List Char) : List (List Char) :=
  let parts := text.splitOn '\n'
  let last := parts.getLast?.getD []
  parts.dropLast.map stripReturn ++ if last = [] then [] else [last]

def unlines (ls : List (List Char)) : List Char := ls.flatMap fun l => l ++ ['\n']

theorem decimal_ne_nil (n : ℕ) : decimal n ≠ [] := Nat.toDigits_ne_nil

theorem isDigit_of_mem_decimal {n : ℕ} {c : Char} (h : c ∈ decimal n) : c.isDigit :=
  Nat.isDigit_of_mem_toDigits (by decide) (by decide) h

theorem notMem_decimal {c : Char} (hc : c.isDigit = false) (n : ℕ) : c ∉ decimal n :=
  fun h => by simp [isDigit_of_mem_decimal h] at hc

theorem decimal_injective : Function.Injective decimal := fun a b h => by
  have hb : Nat.ofDigitChars 10 (decimal b) 0 = b := Nat.ofDigitChars_ten_toDigits
  rw [← h] at hb
  exact Nat.ofDigitChars_ten_toDigits.symm.trans hb

/-- A text of digits is read as their number. -/
theorem parseU64_of_digits {digits : List Char} (hne : digits ≠ [])
    (h : ∀ c ∈ digits, c.isDigit = true) (hlt : Nat.ofDigitChars 10 digits 0 < 2 ^ 64) :
    parseU64 digits = some ⟨Nat.ofDigitChars 10 digits 0, hlt⟩ := by
  have hall : digits.all Char.isDigit = true := List.all_eq_true.mpr h
  unfold parseU64
  split
  · next rest =>
    have hsign : '+'.isDigit = true := h '+' List.mem_cons_self
    cases hsign
  · simp only
    rw [if_pos ⟨hne, hall⟩, dif_pos hlt]

theorem parseU64_decimal (n : U64) : parseU64 (decimal n) = some n := by
  have hvalue : Nat.ofDigitChars 10 (decimal n) 0 = n := Nat.ofDigitChars_ten_toDigits
  have hlt : Nat.ofDigitChars 10 (decimal n) 0 < 2 ^ 64 := hvalue.trans_lt n.isLt
  rw [parseU64_of_digits (decimal_ne_nil _) (fun _ hc => isDigit_of_mem_decimal hc) hlt, Option.some_inj]
  exact Fin.ext hvalue

theorem splitOnce_append {c : Char} {a : List Char} (h : c ∉ a) (b : List Char) :
    splitOnce c (a ++ c :: b) = some (a, b) := by
  induction a with
  | nil => simp [splitOnce]
  | cons d a ih =>
    obtain ⟨hd, ha⟩ := List.ne_and_not_mem_of_not_mem_cons h
    simp [splitOnce, Ne.symm hd, ih ha]

theorem splitOnce_eq_some {c : Char} {s a b : List Char} (h : splitOnce c s = some (a, b)) :
    s = a ++ c :: b := by
  induction s generalizing a with
  | nil => simp [splitOnce] at h
  | cons d s ih =>
    unfold splitOnce at h
    split at h
    · rename_i hd
      cases h
      simp [hd]
    · obtain ⟨p, hp, heq⟩ := Option.map_eq_some_iff.mp h
      cases heq
      simp [ih hp]

/-- Joined parts come apart again at the separators. -/
theorem splitOn_join {sep : Char} {parts : List (List Char)} (h : ∀ p ∈ parts, sep ∉ p)
    (hne : parts ≠ []) : (join sep parts).splitOn sep = parts :=
  List.splitOn_intercalate sep h hne

theorem unlines_eq_join (ls : List (List Char)) : unlines ls = join '\n' (ls ++ [[]]) := by
  induction ls with
  | nil => rfl
  | cons l ls ih =>
    rw [unlines, List.flatMap_cons, ← unlines, ih]
    cases ls with
    | nil => simp [join, List.intercalate]
    | cons m ls => simp [join, List.intercalate]

theorem lines_unlines {ls : List (List Char)} (h : ∀ l ∈ ls, '\n' ∉ l)
    (hr : ∀ l ∈ ls, '\r' ∉ l) : lines (unlines ls) = ls := by
  have hsplit : (unlines ls).splitOn '\n' = ls ++ [[]] := by
    rw [unlines_eq_join]
    refine splitOn_join (fun p hp => ?_) (by simp)
    rcases List.mem_append.mp hp with hp | hp
    · exact h p hp
    · simp [List.mem_singleton.mp hp]
  have hstrip : ls.map stripReturn = ls := by
    refine (List.map_congr_left fun l hl => ?_).trans (List.map_id ls)
    refine if_neg fun hlast => ?_
    exact hr l hl (List.mem_of_getLast? hlast)
  simp [lines, hsplit, hstrip]

end Text
