import Rustorr.Lib.Fallible
import Rustorr.Lib.Machine
import Mathlib.Data.UInt
import Mathlib.Tactic.Common

/-! The EBML elements of untrusted bytes (`cue.rs`). Every operation that the machine checks
is checked here: what overflows, or reads outside of the bytes, is a fault. -/

namespace Rustorr.Gst

inductive Fault where
  | overflow
  | outOfBounds
  | divisionByZero
  /-- A loop that does not advance. -/
  | endless
  deriving DecidableEq

/-- A `Vec<u8>`. -/
structure Bytes where
  val : List UInt8
  bounded : val.length < 2 ^ 63

namespace Bytes

def length (data : Bytes) : ℕ := data.val.length

theorem length_lt (data : Bytes) : data.length < 2 ^ 63 := data.bounded

/-- `data[start..end]`. -/
def slice (data : Bytes) (start end_ : ℕ) : Except Fault (List UInt8) :=
  if start ≤ end_ ∧ end_ ≤ data.length then .ok ((data.val.take end_).drop start)
  else .error .outOfBounds

/-- `data[index]`. -/
def byteAt (data : Bytes) (index : ℕ) : Except Fault UInt8 := Except.okOr data.val[index]? .outOfBounds

end Bytes

namespace Checked

def add (a b : ℕ) : Except Fault ℕ := if a + b < 2 ^ 64 then .ok (a + b) else .error .overflow

def sub (a b : ℕ) : Except Fault ℕ := if b ≤ a then .ok (a - b) else .error .overflow

def mul (a b : ℕ) : Except Fault ℕ := if a * b < 2 ^ 64 then .ok (a * b) else .error .overflow

def div (a b : ℕ) : Except Fault ℕ := if b = 0 then .error .divisionByZero else .ok (a / b)

/-- `i64` subtraction. -/
def subI64 (a b : ℤ) : Except Fault ℤ :=
  if -2 ^ 63 ≤ a - b ∧ a - b < 2 ^ 63 then .ok (a - b) else .error .overflow

/-- `i64` multiplication. -/
def mulI64 (a b : ℤ) : Except Fault ℤ :=
  if -2 ^ 63 ≤ a * b ∧ a * b < 2 ^ 63 then .ok (a * b) else .error .overflow

theorem add_of_lt {a b : ℕ} (h : a + b < 2 ^ 64) : add a b = .ok (a + b) := if_pos h

theorem sub_of_le {a b : ℕ} (h : b ≤ a) : sub a b = .ok (a - b) := if_pos h

theorem mul_of_lt {a b : ℕ} (h : a * b < 2 ^ 64) : mul a b = .ok (a * b) := if_pos h

theorem of_add_eq_ok {a b n : ℕ} (h : add a b = .ok n) : a + b < 2 ^ 64 ∧ n = a + b := by
  unfold add at h
  split at h
  · next hlt => exact ⟨hlt, (Except.ok.inj h).symm⟩
  · cases h

theorem of_mul_eq_ok {a b n : ℕ} (h : mul a b = .ok n) : a * b < 2 ^ 64 ∧ n = a * b := by
  unfold mul at h
  split at h
  · next hlt => exact ⟨hlt, (Except.ok.inj h).symm⟩
  · cases h

theorem div_of_ne_zero {a b : ℕ} (h : b ≠ 0) : div a b = .ok (a / b) := if_neg h

theorem subI64_of_mem {a b : ℤ} (h : -2 ^ 63 ≤ a - b ∧ a - b < 2 ^ 63) :
    subI64 a b = .ok (a - b) := if_pos h

end Checked

open Checked

/-- `fold(start, |value, byte| value << 8 | byte)`. -/
def foldBytes (start : ℕ) (bytes : List UInt8) : ℕ :=
  bytes.foldl (fun value byte => value * 2 ^ 8 % 2 ^ 64 + byte.toNat) start

structure Element where
  id : ℕ
  offset : ℕ
  dataOffset : ℕ
  size : ℕ
  unknownSize : Bool
  deriving DecidableEq

def Element.end_ (e : Element) : Except Fault ℕ := add e.dataOffset e.size

/-- The loop of `vint_length`, with `left` lengths still to try. -/
def vintLengthFrom (first : UInt8) : ℕ → ℕ → UInt8 → Option ℕ
  | 0, _, _ => none
  | left + 1, length, mask =>
    if first &&& mask = 0 then vintLengthFrom first left (length + 1) (mask >>> 1)
    else some length

def vintLength (first : UInt8) (maxLength : ℕ) : Option ℕ := vintLengthFrom first maxLength 1 0x80

def readElementAt (data : Bytes) (offset : ℕ) : Except Fault (Option Element) :=
  match data.val[offset]? with
  | none => .ok none
  | some first => match vintLength first 4 with
    | none => .ok none
    | some idLength => do
      let left ← sub data.length offset
      if left < idLength + 1 then .ok none else
        let sizeOffset ← add offset idLength
        let idBytes ← data.slice offset sizeOffset
        let lead ← data.byteAt sizeOffset
        match vintLength lead 8 with
        | none => .ok none
        | some sizeLength =>
          let left ← sub data.length sizeOffset
          if left < sizeLength then .ok none else
            let marker : UInt8 := 0x80 >>> UInt8.ofNat (sizeLength - 1)
            let dataOffset ← add sizeOffset sizeLength
            let sizeBytes ← data.slice (sizeOffset + 1) dataOffset
            let size := foldBytes (lead &&& (marker - 1)).toNat sizeBytes
            let valueBits := sizeLength * 7
            let unknown := if valueBits = 56 then 0x00ffffffffffffff else 2 ^ valueBits - 1
            .ok (some ⟨foldBytes 0 idBytes, offset, dataOffset, size, decide (size = unknown)⟩)

/-- `unsigned`. -/
def unsigned (data : Bytes) (e : Element) : Except Fault (Option ℕ) :=
  if e.size = 0 ∨ e.size > 8 then .ok none
  else do
    let end_ ← e.end_
    if end_ > data.length then .ok none
    else
      let bytes ← data.slice e.dataOffset end_
      .ok (some (foldBytes 0 bytes))

/-- The loops over the elements from `offset` to `end_`. An element that cannot be read, has
an unknown size or goes past `end_` stops a loop; `body` goes on or returns. A loop that takes
more rounds than there are bytes never ends. -/
def scan {σ ρ : Type} (data : Bytes) (end_ : ℕ) (stopped done : σ → ρ)
    (body : σ → Element → Except Fault (σ ⊕ ρ)) : ℕ → ℕ → σ → Except Fault ρ
  | 0, _, _ => .error .endless
  | fuel + 1, offset, s =>
    if offset < end_ then do
      match ← readElementAt data offset with
      | none => .ok (stopped s)
      | some child =>
        let childEnd ← child.end_
        if child.unknownSize ∨ childEnd > end_ then .ok (stopped s)
        else match ← body s child with
          | .inl s => scan data end_ stopped done body fuel childEnd s
          | .inr r => .ok r
    else .ok (done s)

/-- What `children` yields. -/
def children (data : Bytes) (parent : Element) : Except Fault (List Element) := do
  let end_ ← parent.end_
  scan data end_ id id (fun found child => .ok (.inl (found ++ [child]))) (data.length + 1)
    parent.dataOffset []

/-! ### Elements -/

/-- Where an element ends. -/
def Element.stop (e : Element) : ℕ := e.dataOffset + e.size

/-- What is known of an element that was read from the bytes. -/
structure Element.Within (data : Bytes) (e : Element) : Prop where
  advances : e.offset < e.dataOffset
  header : e.dataOffset ≤ e.offset + 12
  inside : e.dataOffset ≤ data.length
  small : e.size < 2 ^ 56

variable {data : Bytes} {e : Element}

theorem Element.Within.end_eq (h : e.Within data) : e.end_ = .ok e.stop := by
  have hlen := data.length_lt
  have hinside := h.inside
  have hsmall := h.small
  unfold Element.end_
  exact add_of_lt (by omega)

theorem vintLengthFrom_bounds {first : UInt8} {left length n : ℕ} {mask : UInt8}
    (h : vintLengthFrom first left length mask = some n) : length ≤ n ∧ n < length + left := by
  induction left generalizing length mask with
  | zero => cases h
  | succ left ih =>
    unfold vintLengthFrom at h
    split at h
    · obtain ⟨hlow, hhigh⟩ := ih h
      omega
    · cases h
      omega

theorem vintLength_bounds {first : UInt8} {maxLength n : ℕ}
    (h : vintLength first maxLength = some n) : 1 ≤ n ∧ n ≤ maxLength := by
  obtain ⟨hlow, hhigh⟩ := vintLengthFrom_bounds h
  omega

theorem foldBytes_lt {start k : ℕ} (h : start < 2 ^ k) (bytes : List UInt8) :
    foldBytes start bytes < 2 ^ (k + 8 * bytes.length) := by
  induction bytes generalizing start k with
  | nil => exact h
  | cons byte bytes ih =>
    have hbyte : byte.toNat < 2 ^ 8 := byte.toNat_lt
    have hnext : start * 2 ^ 8 % 2 ^ 64 + byte.toNat < 2 ^ (k + 8) := by
      have hmod : start * 2 ^ 8 % 2 ^ 64 ≤ start * 2 ^ 8 := Nat.mod_le _ _
      rw [Nat.pow_add]
      omega
    have hexponent : k + 8 + 8 * bytes.length = k + 8 * (byte :: bytes).length := by
      rw [List.length_cons]
      omega
    rw [← hexponent]
    exact ih hnext

/-- A size has at most 56 bits: of eight bytes the first one gives none. -/
theorem size_lt {lead : UInt8} {sizeLength : ℕ} {bytes : List UInt8} (hpos : 1 ≤ sizeLength)
    (hle : sizeLength ≤ 8) (hbytes : bytes.length = sizeLength - 1) :
    foldBytes (lead &&& ((0x80 : UInt8) >>> UInt8.ofNat (sizeLength - 1) - 1)).toNat bytes <
      2 ^ 56 := by
  by_cases height : sizeLength = 8
  · subst height
    have hzero : (lead &&& ((0x80 : UInt8) >>> UInt8.ofNat (8 - 1) - 1)).toNat = 0 := by
      have hmask : (0x80 : UInt8) >>> UInt8.ofNat (8 - 1) - 1 = 0 := by decide
      rw [hmask, UInt8.and_zero]
      rfl
    rw [hzero]
    refine Nat.lt_of_lt_of_le (foldBytes_lt (k := 0) (by decide) bytes) ?_
    rw [hbytes]
  · refine Nat.lt_of_lt_of_le (foldBytes_lt (k := 8) (UInt8.toNat_lt _) bytes) ?_
    exact Nat.pow_le_pow_right (by decide) (by omega)

theorem slice_of_le {start stop : ℕ} (h₁ : start ≤ stop) (h₂ : stop ≤ data.length) :
    data.slice start stop = .ok ((data.val.take stop).drop start) := if_pos ⟨h₁, h₂⟩

theorem byteAt_of_lt {i : ℕ} (h : i < data.length) : ∃ b, data.byteAt i = .ok b :=
  ⟨data.val[i], Except.okOr_eq_ok.mpr (List.getElem?_eq_getElem h)⟩

/-- Reading an element never faults, and what it reads lies within the bytes. -/
theorem readElementAt_ok (data : Bytes) (offset : ℕ) :
    ∃ found, readElementAt data offset = .ok found ∧
      ∀ e ∈ found, e.offset = offset ∧ e.Within data := by
  have hlen := data.length_lt
  unfold readElementAt
  split
  · exact ⟨none, rfl, nofun⟩
  next first hfirst =>
  have hoffset : offset < data.length := (List.getElem?_eq_some_iff.mp hfirst).1
  split
  · exact ⟨none, rfl, nofun⟩
  next idLength hid =>
  obtain ⟨hidPos, hidLe⟩ := vintLength_bounds hid
  rw [sub_of_le hoffset.le, Except.ok_bind]
  split
  · exact ⟨none, rfl, nofun⟩
  next hroom =>
  rw [add_of_lt (by omega), Except.ok_bind, slice_of_le (by omega) (by omega), Except.ok_bind]
  have hlt : offset + idLength < data.length := by omega
  obtain ⟨lead, hlead⟩ := byteAt_of_lt hlt
  rw [hlead, Except.ok_bind]
  split
  · exact ⟨none, rfl, nofun⟩
  next sizeLength hsize =>
  obtain ⟨hsizePos, hsizeLe⟩ := vintLength_bounds hsize
  rw [sub_of_le (by omega), Except.ok_bind]
  split
  · exact ⟨none, rfl, nofun⟩
  next hrest =>
  rw [add_of_lt (by omega), Except.ok_bind, slice_of_le (by omega) (by omega), Except.ok_bind]
  refine ⟨_, rfl, fun e he => ?_⟩
  cases he
  refine ⟨rfl, ?_, ?_, ?_, size_lt hsizePos hsizeLe ?_⟩
  · show offset < offset + idLength + sizeLength
    omega
  · show offset + idLength + sizeLength ≤ offset + 12
    omega
  · show offset + idLength + sizeLength ≤ data.length
    omega
  · rw [List.length_drop, List.length_take]
    have heq : data.val.length = data.length := rfl
    omega

example : readElementAt ⟨[0xB3, 0x81, 7], by decide⟩ 0 = .ok (some ⟨0xB3, 0, 2, 1, false⟩) := by
  decide +kernel

/-- The number an element holds. -/
def number (data : Bytes) (e : Element) : Option ℕ :=
  if e.size = 0 ∨ e.size > 8 ∨ e.stop > data.length then none
  else some (foldBytes 0 ((data.val.take e.stop).drop e.dataOffset))

theorem unsigned_eq (h : e.Within data) : unsigned data e = .ok (number data e) := by
  unfold unsigned number
  by_cases hsize : e.size = 0 ∨ e.size > 8
  · rw [if_pos hsize, if_pos (or_assoc.mp (Or.inl hsize))]
  rw [if_neg hsize, h.end_eq, Except.ok_bind]
  by_cases hstop : e.stop > data.length
  · rw [if_pos hstop, if_pos (Or.inr (Or.inr hstop))]
  have hnot : ¬(e.size = 0 ∨ e.size > 8 ∨ e.stop > data.length) := by
    rw [← or_assoc]
    exact not_or.mpr ⟨hsize, hstop⟩
  have hordered : e.dataOffset ≤ e.stop := Nat.le_add_right _ _
  rw [if_neg hstop, if_neg hnot, slice_of_le hordered (not_lt.mp hstop)]
  rfl

/-! ### Loops over elements -/

/-- The elements that a loop from `offset` to `end_` comes to, and whether they fill it. -/
inductive Walk (data : Bytes) (end_ : ℕ) : ℕ → List Element → Bool → Prop
  | filled {offset : ℕ} (h : end_ ≤ offset) : Walk data end_ offset [] true
  | stopped {offset : ℕ} {found : Option Element} (h : offset < end_)
      (hread : readElementAt data offset = .ok found)
      (hbad : ∀ e ∈ found, e.unknownSize = true ∨ end_ < e.stop) : Walk data end_ offset [] false
  | next {offset : ℕ} {e : Element} {rest : List Element} {full : Bool} (h : offset < end_)
      (hread : readElementAt data offset = .ok (some e)) (hknown : e.unknownSize = false)
      (hstop : e.stop ≤ end_) (hrest : Walk data end_ e.stop rest full) :
      Walk data end_ offset (e :: rest) full

/-- What a loop makes of the elements it comes to. -/
def runLoop {σ ρ : Type} (body : σ → Element → σ ⊕ ρ) (finish : σ → ρ) : List Element → σ → ρ
  | [], s => finish s
  | e :: rest, s => match body s e with
    | .inl s => runLoop body finish rest s
    | .inr r => r

variable {end_ offset : ℕ}

theorem readElementAt_some (h : readElementAt data offset = .ok (some e)) :
    e.offset = offset ∧ e.Within data := by
  obtain ⟨found, hfound, hall⟩ := readElementAt_ok data offset
  rw [h, Except.ok.injEq] at hfound
  exact hall e hfound.symm

/-- An element ends further on than it began. -/
theorem lt_stop (h : readElementAt data offset = .ok (some e)) : offset < e.stop := by
  obtain ⟨hoffset, hwithin⟩ := readElementAt_some h
  have hadvances := hwithin.advances
  unfold Element.stop
  omega

theorem lt_length (h : readElementAt data offset = .ok (some e)) : offset < data.length := by
  obtain ⟨hoffset, hwithin⟩ := readElementAt_some h
  have hadvances := hwithin.advances
  have hinside := hwithin.inside
  omega

theorem Walk.within {l : List Element} {full : Bool} (h : Walk data end_ offset l full) :
    ∀ e ∈ l, e.Within data := by
  induction h with
  | filled => exact fun e he => absurd he List.not_mem_nil
  | stopped => exact fun e he => absurd he List.not_mem_nil
  | next _ hread _ _ _ ih =>
    intro e he
    rcases List.mem_cons.mp he with rfl | he
    · exact (readElementAt_some hread).2
    · exact ih e he

/-- Every loop comes to its end: each element takes at least one of the bytes. -/
theorem exists_walk (data : Bytes) (end_ offset : ℕ) :
    ∃ l full, Walk data end_ offset l full ∧ l.length ≤ data.length - offset := by
  induction hleft : data.length - offset using Nat.strong_induction_on generalizing offset with
  | _ left ih =>
    by_cases hend : end_ ≤ offset
    · exact ⟨[], true, .filled hend, Nat.zero_le _⟩
    obtain ⟨found, hread, -⟩ := readElementAt_ok data offset
    by_cases hbad : ∀ e ∈ found, e.unknownSize = true ∨ end_ < e.stop
    · exact ⟨[], false, .stopped (not_le.mp hend) hread hbad, Nat.zero_le _⟩
    push Not at hbad
    obtain ⟨e, he, hknown, hstop⟩ := hbad
    obtain rfl : found = some e := he
    have hless := lt_stop hread
    have hlen := lt_length hread
    obtain ⟨l, full, hwalk, hl⟩ := ih _ (by omega) e.stop rfl
    refine ⟨e :: l, full, .next (not_le.mp hend) hread ?_ hstop hwalk, ?_⟩
    · exact Bool.eq_false_iff.mpr hknown
    · rw [List.length_cons]
      omega

theorem Walk.unique {l l' : List Element} {full full' : Bool} (h : Walk data end_ offset l full)
    (h' : Walk data end_ offset l' full') : l = l' ∧ full = full' := by
  induction h generalizing l' with
  | filled hend =>
    cases h' with
    | filled => exact ⟨rfl, rfl⟩
    | stopped hlt => exact absurd hlt (not_lt.mpr hend)
    | next hlt => exact absurd hlt (not_lt.mpr hend)
  | stopped hlt hread hbad =>
    cases h' with
    | filled hend => exact absurd hlt (not_lt.mpr hend)
    | stopped => exact ⟨rfl, rfl⟩
    | next _ hread' hknown hstop =>
      rw [hread, Except.ok.injEq] at hread'
      rcases hbad _ hread' with hunknown | hpast
      · rw [hknown] at hunknown
        cases hunknown
      · exact absurd hpast (not_lt.mpr hstop)
  | next hlt hread hknown hstop _ ih =>
    cases h' with
    | filled hend => exact absurd hlt (not_lt.mpr hend)
    | stopped _ hread' hbad =>
      rw [hread, Except.ok.injEq] at hread'
      rcases hbad _ hread'.symm with hunknown | hpast
      · rw [hknown] at hunknown
        cases hunknown
      · exact absurd hpast (not_lt.mpr hstop)
    | next _ hread' _ _ hrest' =>
      rw [hread, Except.ok.injEq, Option.some.injEq] at hread'
      subst hread'
      obtain ⟨rfl, rfl⟩ := ih hrest'
      exact ⟨rfl, rfl⟩

/-- A loop whose body never faults returns what it makes of the elements it comes to. -/
theorem scan_eq {σ ρ : Type} {stopped done : σ → ρ}
    {body : σ → Element → Except Fault (σ ⊕ ρ)} {body' : σ → Element → σ ⊕ ρ}
    (hbody : ∀ s e, e.Within data → body s e = .ok (body' s e)) {l : List Element} {full : Bool}
    (h : Walk data end_ offset l full) {fuel : ℕ} (hfuel : l.length < fuel) (s : σ) :
    scan data end_ stopped done body fuel offset s =
      .ok (runLoop body' (if full then done else stopped) l s) := by
  induction h generalizing fuel s with
  | filled hend =>
    obtain ⟨fuel, rfl⟩ := Nat.exists_eq_succ_of_ne_zero (Nat.ne_of_gt hfuel)
    unfold scan
    rw [if_neg (not_lt.mpr hend)]
    rfl
  | stopped hlt hread hbad =>
    obtain ⟨fuel, rfl⟩ := Nat.exists_eq_succ_of_ne_zero (Nat.ne_of_gt hfuel)
    unfold scan
    rw [if_pos hlt, hread, Except.ok_bind]
    split
    · rfl
    next found child =>
    rw [(readElementAt_some hread).2.end_eq, Except.ok_bind, if_pos (hbad child rfl)]
    rfl
  | @next offset e rest full hlt hread hknown hstop _ ih =>
    obtain ⟨fuel, rfl⟩ := Nat.exists_eq_succ_of_ne_zero (Nat.ne_of_gt (Nat.zero_lt_of_lt hfuel))
    have hwithin := (readElementAt_some hread).2
    have hgood : ¬(e.unknownSize = true ∨ e.stop > end_) := by
      rw [hknown]
      exact not_or.mpr ⟨Bool.false_ne_true, not_lt.mpr hstop⟩
    have hrest : rest.length < fuel := Nat.lt_of_succ_lt_succ hfuel
    unfold scan
    rw [if_pos hlt, hread, Except.ok_bind]
    dsimp only
    rw [hwithin.end_eq, Except.ok_bind, if_neg hgood, hbody s e hwithin, Except.ok_bind]
    unfold runLoop
    split
    · exact ih hrest _
    · rfl

/-- The computation does not fault. -/
def Returns {α : Type} (x : Except Fault α) : Prop := ∃ a, x = .ok a

theorem returns_ok {α : Type} (a : α) : Returns (.ok a) := ⟨a, rfl⟩

theorem returns_bind {α β : Type} {x : Except Fault α} {f : α → Except Fault β} (hx : Returns x)
    (hf : ∀ a, x = .ok a → Returns (f a)) : Returns (x >>= f) := by
  obtain ⟨a, ha⟩ := hx
  have hnext := hf a ha
  rw [ha, Except.ok_bind]
  exact hnext

theorem returns_unsigned (h : e.Within data) : Returns (unsigned data e) := ⟨_, unsigned_eq h⟩

theorem returns_end (h : e.Within data) : Returns e.end_ := ⟨_, h.end_eq⟩

theorem returns_foldlM {σ : Type} {f : σ → Element → Except Fault σ}
    (hf : ∀ s e, e.Within data → Returns (f s e)) {l : List Element}
    (hl : ∀ e ∈ l, e.Within data) (s : σ) : Returns (l.foldlM f s) := by
  induction l generalizing s with
  | nil => exact returns_ok s
  | cons e l ih =>
    rw [List.foldlM_cons]
    refine returns_bind (hf s e (hl e List.mem_cons_self)) fun s' _ => ?_
    exact ih (fun e he => hl e (List.mem_cons_of_mem _ he)) s'

/-- What a round of a loop that does not fault does. -/
def round {σ ρ : Type} (body : σ → Element → Except Fault (σ ⊕ ρ)) (s : σ) (e : Element) : σ ⊕ ρ :=
  match body s e with
  | .ok r => r
  | .error _ => .inl s

theorem round_eq {σ ρ : Type} {body : σ → Element → Except Fault (σ ⊕ ρ)} {s : σ}
    (h : Returns (body s e)) : body s e = .ok (round body s e) := by
  obtain ⟨r, hr⟩ := h
  unfold round
  rw [hr]

theorem returns_scan {σ ρ : Type} {stopped done : σ → ρ}
    {body : σ → Element → Except Fault (σ ⊕ ρ)}
    (hbody : ∀ s e, e.Within data → Returns (body s e)) (s : σ) :
    Returns (scan data end_ stopped done body (data.length + 1) offset s) := by
  obtain ⟨l, full, hwalk, hl⟩ := exists_walk data end_ offset
  exact ⟨_, scan_eq (fun s e he => round_eq (hbody s e he)) hwalk (by omega) s⟩

theorem runLoop_append (found l : List Element) :
    runLoop (fun found child => .inl (found ++ [child])) id l found = found ++ l := by
  induction l generalizing found with
  | nil => exact (List.append_nil found).symm
  | cons e l ih =>
    unfold runLoop
    dsimp only
    rw [ih, List.append_assoc]
    rfl

/-- The children of an element lie within the bytes. -/
theorem exists_children {parent : Element} (h : parent.Within data) :
    ∃ l, children data parent = .ok l ∧ ∀ e ∈ l, e.Within data := by
  obtain ⟨l, full, hwalk, hl⟩ := exists_walk data parent.stop parent.dataOffset
  refine ⟨l, ?_, hwalk.within⟩
  unfold children
  rw [h.end_eq, Except.ok_bind, scan_eq (fun _ _ _ => rfl) hwalk (by omega), ite_self,
    runLoop_append]
  rfl

end Rustorr.Gst
