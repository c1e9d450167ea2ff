import Mathlib.Data.UInt
import Mathlib.Data.List.Basic

/-! Names in messages: labels after their lengths, up to an empty one, where the rest of a name may
stand elsewhere and is pointed to. -/

namespace DomainName

/-- A length byte that is the first half of a pointer. -/
def IsPointer (b : UInt8) : Prop := b &&& 0xC0 = 0xC0

instance (b : UInt8) : Decidable (IsPointer b) := inferInstanceAs (Decidable (_ = _))

/-- Where a pointer of two bytes points. -/
def target (high low : UInt8) : ℕ := (high &&& 0x3F).toNat <<< 8 ||| low.toNat

/-- The name at an offset has these labels and ends at that offset; each length byte, pointer and
the end are a step. A label's length has to be allowed. -/
inductive Reads (ok : UInt8 → Prop) (bytes : List UInt8) :
    ℕ → List (List UInt8) → ℕ → ℕ → Prop where
  | root {o : ℕ} : bytes[o]? = some 0 → Reads ok bytes o [] 1 (o + 1)
  | label {o : ℕ} {b : UInt8} {l : List UInt8} {ls : List (List UInt8)} {k e : ℕ} :
    bytes[o]? = some b → ¬IsPointer b → b ≠ 0 → ok b → l.length = b.toNat →
    l <+: bytes.drop (o + 1) → Reads ok bytes (o + 1 + b.toNat) ls k e →
    Reads ok bytes o (l :: ls) (k + 1) e
  | pointer {o : ℕ} {b low : UInt8} {ls : List (List UInt8)} {k e : ℕ} :
    bytes[o]? = some b → IsPointer b → bytes[o + 1]? = some low →
    Reads ok bytes (target b low) ls k e → Reads ok bytes o ls (k + 1) (o + 2)

variable {ok ok' : UInt8 → Prop} {bytes : List UInt8} {o k k' e e' : ℕ}
variable {ls ls' : List (List UInt8)}

theorem not_isPointer_zero : ¬IsPointer 0 := by decide

namespace Reads

theorem imp (himp : ∀ b, ok b → ok' b) (h : Reads ok bytes o ls k e) : Reads ok' bytes o ls k e := by
  induction h with
  | root h => exact .root h
  | label hb hp h0 hok hlen hl _ ih => exact .label hb hp h0 (himp _ hok) hlen hl ih
  | pointer hb hp hlow _ ih => exact .pointer hb hp hlow ih

/-- A name stays where it is when more is written. -/
theorem append (more : List UInt8) (h : Reads ok bytes o ls k e) :
    Reads ok (bytes ++ more) o ls k e := by
  have hat : ∀ {i : ℕ} {b : UInt8}, bytes[i]? = some b → (bytes ++ more)[i]? = some b := by
    intro i b hb
    rw [List.getElem?_append_left (List.getElem?_eq_some_iff.mp hb).1, hb]
  induction h with
  | root h => exact .root (hat h)
  | label hb hp h0 hok hlen hl _ ih =>
    apply Reads.label (hat hb) hp h0 hok hlen _ ih
    have hin := (List.getElem?_eq_some_iff.mp hb).1
    rw [List.drop_append_of_le_length hin]
    exact hl.trans (List.prefix_append _ _)
  | pointer hb hp hlow _ ih => exact .pointer (hat hb) hp (hat hlow) ih

theorem pos (h : Reads ok bytes o ls k e) : 0 < k := by
  cases h with
  | root => exact Nat.one_pos
  | label => exact Nat.succ_pos _
  | pointer => exact Nat.succ_pos _

/-- The bytes at an offset say which labels stand there. -/
theorem unique (h : Reads ok bytes o ls k e) (h' : Reads ok' bytes o ls' k' e') :
    ls = ls' ∧ k = k' ∧ e = e' := by
  induction h generalizing ls' k' e' with
  | root hb =>
    cases h' with
    | root => exact ⟨rfl, rfl, rfl⟩
    | label hb' hp h0 =>
      rw [hb] at hb'
      exact absurd (Option.some.inj hb').symm h0
    | pointer hb' hp =>
      rw [hb] at hb'
      exact absurd (Option.some.inj hb' ▸ hp) not_isPointer_zero
  | label hb hp h0 hok hlen hl _ ih =>
    cases h' with
    | root hb' =>
      rw [hb] at hb'
      exact absurd (Option.some.inj hb') h0
    | label hb' hp' h0' hok' hlen' hl' h' =>
      rw [hb] at hb'
      obtain rfl := Option.some.inj hb'
      obtain ⟨rfl, rfl, rfl⟩ := ih h'
      rw [List.prefix_iff_eq_take.mp hl, List.prefix_iff_eq_take.mp hl', hlen, hlen']
      exact ⟨rfl, rfl, rfl⟩
    | pointer hb' hp' =>
      rw [hb] at hb'
      exact absurd (Option.some.inj hb' ▸ hp') hp
  | pointer hb hp hlow _ ih =>
    cases h' with
    | root hb' =>
      rw [hb] at hb'
      exact absurd (Option.some.inj hb' ▸ hp) not_isPointer_zero
    | label hb' hp' =>
      rw [hb] at hb'
      exact absurd (Option.some.inj hb' ▸ hp) hp'
    | pointer hb' hp' hlow' h' =>
      rw [hb] at hb'
      rw [hlow] at hlow'
      obtain rfl := Option.some.inj hb'
      obtain rfl := Option.some.inj hlow'
      obtain ⟨rfl, rfl, -⟩ := ih h'
      exact ⟨rfl, rfl, rfl⟩

/-- A label with its length before the rest of the name. -/
theorem cons_label {l post : List UInt8} (pre : List UInt8) (hbytes :
    bytes = pre ++ (UInt8.ofNat l.length :: l) ++ post) (hne : l ≠ []) (hlen : l.length < 64)
    (hok : ok (UInt8.ofNat l.length)) (h : Reads ok bytes (pre.length + 1 + l.length) ls k e) :
    Reads ok bytes pre.length (l :: ls) (k + 1) e := by
  have hsmall : ∀ n < 64, ¬IsPointer (UInt8.ofNat n) ∧ (UInt8.ofNat n).toNat = n := by decide
  obtain ⟨hpointer, hnat⟩ := hsmall l.length hlen
  rw [List.append_assoc, List.cons_append] at hbytes
  have hat : bytes[pre.length]? = some (UInt8.ofNat l.length) := by
    rw [hbytes, List.getElem?_append_right (Nat.le_refl _), Nat.sub_self]
    rfl
  have hprefix : l <+: bytes.drop (pre.length + 1) := by
    rw [hbytes, List.drop_append, Nat.add_sub_cancel_left,
      List.drop_of_length_le (Nat.le_succ _)]
    exact List.prefix_append _ _
  refine .label hat hpointer ?_ hok hnat.symm hprefix (by rwa [hnat])
  intro hzero
  rw [hzero] at hnat
  exact hne (List.length_eq_zero_iff.mp hnat.symm)

end Reads

end DomainName
