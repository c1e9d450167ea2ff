import Mathlib.Data.UInt

/-! Numbers as bytes, the highest first. -/

namespace BigEndian

/-- The number of four bytes; a missing byte counts as zero. -/
def be32 : List UInt8 → UInt32
  | a :: b :: c :: d :: _ =>
    UInt32.ofNat (a.toNat * 2 ^ 24 + b.toNat * 2 ^ 16 + c.toNat * 2 ^ 8 + d.toNat)
  | _ => 0

def toBe32 (n : UInt32) : List UInt8 :=
  [UInt8.ofNat (n.toNat / 2 ^ 24), UInt8.ofNat (n.toNat / 2 ^ 16), UInt8.ofNat (n.toNat / 2 ^ 8),
    UInt8.ofNat n.toNat]

def be64 (bytes : List UInt8) : ℕ := (be32 bytes).toNat * 2 ^ 32 + (be32 (bytes.drop 4)).toNat

def toBe64 (n : ℕ) : List UInt8 := toBe32 (UInt32.ofNat (n / 2 ^ 32)) ++ toBe32 (UInt32.ofNat n)

@[simp] theorem length_toBe32 (n : UInt32) : (toBe32 n).length = 4 := rfl

@[simp] theorem length_toBe64 (n : ℕ) : (toBe64 n).length = 8 := rfl

@[simp] theorem be32_toBe32 (n : UInt32) (rest : List UInt8) : be32 (toBe32 n ++ rest) = n := by
  have hn := n.toNat_lt
  apply UInt32.toNat_inj.mp
  show (UInt32.ofNat _).toNat = n.toNat
  simp only [UInt32.toNat_ofNat', UInt8.toNat_ofNat']
  omega

theorem be64_lt (bytes : List UInt8) : be64 bytes < 2 ^ 64 := by
  have h₁ := (be32 bytes).toNat_lt
  have h₂ := (be32 (bytes.drop 4)).toNat_lt
  unfold be64
  omega

@[simp] theorem be64_toBe64 {n : ℕ} (h : n < 2 ^ 64) (rest : List UInt8) :
    be64 (toBe64 n ++ rest) = n := by
  unfold be64 toBe64
  rw [List.append_assoc, be32_toBe32]
  have hdrop : (toBe32 (UInt32.ofNat (n / 2 ^ 32)) ++ (toBe32 (UInt32.ofNat n) ++ rest)).drop 4 =
      toBe32 (UInt32.ofNat n) ++ rest := rfl
  rw [hdrop, be32_toBe32, UInt32.toNat_ofNat', UInt32.toNat_ofNat']
  omega

end BigEndian
