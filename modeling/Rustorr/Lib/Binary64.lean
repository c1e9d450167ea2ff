import Mathlib.Data.Rat.Floor

/-! The arithmetic of IEEE 754 binary64, up to the sign of zero: exact values, rounded
to the nearest representable one, ties to even. -/

inductive Binary64 where
  | nan
  | inf (negative : Bool)
  | finite (value : ℚ)
  deriving DecidableEq

namespace Binary64

/-- The nearest integer, ties to even. -/
def roundHalfEven (q : ℚ) : ℤ :=
  let n := ⌊q⌋
  let rest := q - n
  if rest < 1 / 2 then n
  else if 1 / 2 < rest then n + 1
  else if n % 2 = 0 then n
  else n + 1

def twoPow (e : ℤ) : ℚ := if 0 ≤ e then (2 ^ e.toNat : ℕ) else 1 / (2 ^ (-e).toNat : ℕ)

/-- The exponent of the highest binary digit of a positive number. -/
def exponent (q : ℚ) : ℤ :=
  let k := (Nat.log2 q.num.natAbs : ℤ) - Nat.log2 q.den
  if twoPow k ≤ q then k else k - 1

/-- The nearest representable number. -/
def ofRat (q : ℚ) : Binary64 :=
  if q = 0 then finite 0
  else
    let ulp := twoPow (max (exponent |q|) (-1022) - 52)
    let value := roundHalfEven (|q| / ulp) * ulp
    if twoPow 1024 ≤ value then inf (decide (q < 0))
    else finite (if q < 0 then -value else value)

def ofNat (n : ℕ) : Binary64 := ofRat n

def ofInt (n : ℤ) : Binary64 := ofRat n

def isFinite : Binary64 → Bool
  | finite _ => true
  | _ => false

def mul : Binary64 → Binary64 → Binary64
  | finite a, finite b => ofRat (a * b)
  | inf s, inf t => inf (s != t)
  | inf s, finite b | finite b, inf s => if b = 0 then nan else inf (s != decide (b < 0))
  | nan, _ | _, nan => nan

def add : Binary64 → Binary64 → Binary64
  | finite a, finite b => ofRat (a + b)
  | inf s, inf t => if s = t then inf s else nan
  | inf s, finite _ | finite _, inf s => inf s
  | nan, _ | _, nan => nan

/-- Division by a number that is not negative. -/
def div : Binary64 → Binary64 → Binary64
  | finite a, finite b =>
    if b = 0 then (if a = 0 then nan else inf (decide (a < 0))) else ofRat (a / b)
  | inf s, finite b => inf (s != decide (b < 0))
  | finite _, inf _ => finite 0
  | inf _, inf _ => nan
  | nan, _ | _, nan => nan

def lt : Binary64 → Binary64 → Bool
  | finite a, finite b => decide (a < b)
  | inf s, inf t => s && !t
  | inf s, finite _ => s
  | finite _, inf s => !s
  | nan, _ | _, nan => false

def le : Binary64 → Binary64 → Bool
  | finite a, finite b => decide (a ≤ b)
  | inf s, inf t => s || !t
  | inf s, finite _ => s
  | finite _, inf s => !s
  | nan, _ | _, nan => false

def ceil : Binary64 → Binary64
  | finite a => finite ⌈a⌉
  | x => x

/-- `round`: ties away from zero. -/
def round : Binary64 → Binary64
  | finite a => finite (if a < 0 then -⌊-a + 1 / 2⌋ else ⌊a + 1 / 2⌋)
  | x => x

/-- `as u64`: towards zero, and to the nearest end of the range. -/
def toU64 : Binary64 → ℕ
  | finite a => min ⌊a⌋.toNat (2 ^ 64 - 1)
  | inf false => 2 ^ 64 - 1
  | _ => 0

def zero : Binary64 := finite 0

/-- `{:.6}`. -/
def toFixed6 : Binary64 → String
  | nan => "NaN"
  | inf false => "inf"
  | inf true => "-inf"
  | finite a =>
    let n := (roundHalfEven (|a| * 1000000)).toNat
    let digits := toString (n % 1000000)
    (if a < 0 then "-" else "") ++ toString (n / 1000000) ++ "." ++
      String.ofList (List.replicate (6 - digits.length) '0') ++ digits

end Binary64
