import Rustorr.Domain
import Rustorr.Lib.SortedMap
import Rustorr.Lib.Spans
import Mathlib.Tactic.Ring

/-! The byte ranges a store has received (`extents.rs`). Every arithmetic step
of the source is a checked one here, so an answer of `none` is an overflow. -/

namespace Rustorr

open Spans

namespace Extents

/-- The record of the source, before anything is known about it. -/
structure Raw where
  spans : List (ℕ × ℕ)
  total : ℕ
  deriving DecidableEq

namespace Raw

def empty : Raw := ⟨[], 0⟩

/-- The local variables of `insert` while it absorbs neighbours. -/
structure Merge where
  start : ℕ
  end_ : ℕ
  absorbed : ℕ
  absorbedStarts : List ℕ

def Merge.absorb (m : Merge) (p : ℕ × ℕ) : Option Merge := do
  let len ← U64.checkedSub p.2 p.1
  let absorbed ← U64.checkedAdd m.absorbed len
  return ⟨m.start, max m.end_ p.2, absorbed, m.absorbedStarts ++ [p.1]⟩

/-- A span that begins earlier but reaches into, or touches, the range. -/
def predecessor (x : Raw) (range : ByteRange) : Option (ℕ × ℕ) :=
  (SortedMap.lastUpTo range.start x.spans).filter fun p => decide (range.start ≤ p.2)

/-- Spans that begin inside the range, or exactly where it ends. -/
def following (x : Raw) (range : ByteRange) : List (ℕ × ℕ) :=
  SortedMap.between range.start range.end_ x.spans

def mergePredecessor (x : Raw) (range : ByteRange) : Option Merge :=
  let m : Merge := ⟨range.start, range.end_, 0, []⟩
  match x.predecessor range with
  | some p => (m.absorb p).map fun m => { m with start := p.1 }
  | none => some m

def insert (x : Raw) (range : ByteRange) : Option (ℕ × Raw) :=
  if range.isEmpty then some (0, x) else do
    let m ← x.mergePredecessor range
    let m ← (x.following range).foldlM Merge.absorb m
    let rest := m.absorbedStarts.foldl (fun l s => SortedMap.remove s l) x.spans
    let spans := SortedMap.insert m.start m.end_ rest
    let width ← U64.checkedSub m.end_ m.start
    let added ← U64.checkedSub width m.absorbed
    let total ← U64.checkedAdd x.total added
    return (added, ⟨spans, total⟩)

def covers (x : Raw) (range : ByteRange) : Bool :=
  range.isEmpty || (SortedMap.lastUpTo range.start x.spans).any fun p => decide (range.end_ ≤ p.2)

/-- Calls of `insert` one after another, with the values they return. -/
def inserts (x : Raw) : List ByteRange → Option (List ℕ × Raw)
  | [] => some ([], x)
  | range :: ranges => do
    let (added, x) ← x.insert range
    let (rest, x) ← x.inserts ranges
    return (added :: rest, x)

structure Valid (x : Raw) : Prop where
  canonical : Canonical x.spans
  bounded : ∀ p ∈ x.spans, p.2 < 2 ^ 64
  total_eq : x.total = size x.spans

theorem valid_empty : empty.Valid := ⟨canonical_nil, by simp [empty], rfl⟩

theorem foldlM_absorb (l : List (ℕ × ℕ)) (hl : ∀ p ∈ l, p.1 ≤ p.2) (m : Merge)
    (hsum : m.absorbed + size l < 2 ^ 64) :
    l.foldlM Merge.absorb m = some ⟨m.start, hullEnd m.end_ l, m.absorbed + size l,
      m.absorbedStarts ++ l.map Prod.fst⟩ := by
  induction l generalizing m with
  | nil => simp [hullEnd]
  | cons p l ih =>
    rw [size_cons] at hsum
    have h1 : m.absorb p = some ⟨m.start, max m.end_ p.2, m.absorbed + (p.2 - p.1),
        m.absorbedStarts ++ [p.1]⟩ := by
      simp [Merge.absorb, U64.checkedSub_of_le (hl p (by simp)),
        U64.checkedAdd_of_lt (show m.absorbed + (p.2 - p.1) < 2 ^ 64 by omega)]
    rw [List.foldlM_cons, h1, Option.bind_eq_bind, Option.bind_some,
      ih (fun q hq => hl q (by simp [hq])) _ (by simp only; omega)]
    simp [hullEnd, Nat.add_assoc]

section Split
variable {x : Raw} {range : ByteRange} {a m b : List (ℕ × ℕ)}

/-- What `mergePredecessor` and the loop over `following` leave behind: the
hull of the range and of the spans around it. -/
theorem absorb_eq (hx : x.Valid) (hspans : x.spans = a ++ m ++ b)
    (hlt : range.start < range.end_) (ha : ∀ p ∈ a, p.2 < range.start)
    (hm : ∀ p ∈ m, range.start ≤ p.2 ∧ p.1 ≤ range.end_) (hb : ∀ p ∈ b, range.end_ < p.1) :
    (do let y ← x.mergePredecessor range; (x.following range).foldlM Merge.absorb y) =
      some ⟨hullStart range.start m, hullEnd range.end_ m, size m, m.map Prod.fst⟩ := by
  have hc := hx.canonical
  rw [hspans] at hc
  obtain ⟨hcam, hcb, -⟩ := canonical_append.mp hc
  obtain ⟨hca, hcm, -⟩ := canonical_append.mp hcam
  have hbound : size m < 2 ^ 64 := by
    have := size_le hcm (n := 2 ^ 64 - 1) fun p hp => by
      have := hx.bounded p (by simp [hspans, hp])
      omega
    omega
  have hkeya : ∀ p ∈ a, p.1 < range.start := fun p hp => (hca.pos p hp).trans (ha p hp)
  have hkeyb : ∀ p ∈ b, range.start < p.1 := fun p hp => hlt.trans (hb p hp)
  have hfa : a.filter (fun p => decide (range.start < p.1 ∧ p.1 ≤ range.end_)) = [] :=
    List.filter_eq_nil_iff.mpr fun p hp => by
      have := hkeya p hp
      simp only [decide_eq_true_eq]
      omega
  have hfb : b.filter (fun p => decide (range.start < p.1 ∧ p.1 ≤ range.end_)) = [] :=
    List.filter_eq_nil_iff.mpr fun p hp => by
      have := hb p hp
      simp only [decide_eq_true_eq]
      omega
  have hfollowing : x.following range =
      m.filter fun p => decide (range.start < p.1 ∧ p.1 ≤ range.end_) := by
    simp only [following, SortedMap.between, hspans, List.filter_append, hfa, hfb,
      List.nil_append, List.append_nil]
  have hle : ∀ p ∈ m, p.1 ≤ p.2 := fun p hp => (hcm.pos p hp).le
  -- only the first absorbed span can begin at or before the range
  have hrest : ∀ p l, m = p :: l → ∀ q ∈ l, range.start < q.1 := by
    intro p l h q hq
    subst h
    exact (hm p (by simp)).1.trans_lt ((canonical_cons.mp hcm).2.1 q hq)
  have hlast : SortedMap.lastUpTo range.start x.spans = SortedMap.lastUpTo range.start (a ++ m) := by
    rw [hspans, SortedMap.lastUpTo_append_left _ _ _ hkeyb]
  by_cases hhead : ∃ p l, m = p :: l ∧ p.1 ≤ range.start
  · obtain ⟨p, l, rfl, hp⟩ := hhead
    have hl : ∀ q ∈ l, range.start < q.1 := hrest p l rfl
    have hpred : x.predecessor range = some p := by
      have h1 : a ++ p :: l = (a ++ [p]) ++ l := by simp
      rw [predecessor, hlast, h1, SortedMap.lastUpTo_append_left _ _ _ hl,
        SortedMap.lastUpTo_concat _ _ _ hp]
      simp [(hm p (by simp)).1]
    have hfilter : (p :: l).filter (fun q => decide (range.start < q.1 ∧ q.1 ≤ range.end_)) = l := by
      rw [List.filter_cons_of_neg (by simpa using fun h => absurd h hp.not_gt)]
      exact List.filter_eq_self.mpr fun q hq => by
        simpa using ⟨hl q hq, (hm q (by simp [hq])).2⟩
    rw [size_cons] at hbound
    have habsorb : x.mergePredecessor range =
        some ⟨p.1, max range.end_ p.2, p.2 - p.1, [p.1]⟩ := by
      simp [mergePredecessor, hpred, Merge.absorb, U64.checkedSub_of_le (hle p (by simp)),
        U64.checkedAdd_of_lt (show 0 + (p.2 - p.1) < 2 ^ 64 by omega)]
    rw [habsorb, hfollowing, hfilter, Option.bind_eq_bind, Option.bind_some,
      foldlM_absorb l (fun q hq => hle q (by simp [hq])) _ hbound]
    simp [hullStart, hullEnd, min_eq_right hp]
  · have hl : ∀ q ∈ m, range.start < q.1 := by
      intro q hq
      cases m with
      | nil => simp at hq
      | cons p l =>
        have hp : range.start < p.1 := not_le.mp fun h => hhead ⟨p, l, rfl, h⟩
        rcases List.mem_cons.mp hq with rfl | hq
        · exact hp
        · exact hrest p l rfl q hq
    have hpred : x.predecessor range = none := by
      rw [predecessor, hlast, SortedMap.lastUpTo_append_left _ _ _ hl]
      cases h : SortedMap.lastUpTo range.start a with
      | none => rfl
      | some p => simp [Option.filter, ha p (SortedMap.lastUpTo_mem h).1]
    have hfilter : m.filter (fun q => decide (range.start < q.1 ∧ q.1 ≤ range.end_)) = m :=
      List.filter_eq_self.mpr fun q hq => by simpa using ⟨hl q hq, (hm q hq).2⟩
    have hstart : hullStart range.start m = range.start := by
      cases m with
      | nil => rfl
      | cons p l => exact min_eq_left (hl p (by simp)).le
    have habsorb : x.mergePredecessor range = some ⟨range.start, range.end_, 0, []⟩ := by
      simp [mergePredecessor, hpred]
    rw [habsorb, hfollowing, hfilter, Option.bind_eq_bind, Option.bind_some,
      foldlM_absorb m hle _ (by simpa using hbound)]
    simp [hstart]

/-- Taking the absorbed spans out and putting the hull in. -/
theorem replace_eq (hx : x.Valid) (hspans : x.spans = a ++ m ++ b)
    (hlt : range.start < range.end_) (ha : ∀ p ∈ a, p.2 < range.start)
    (hb : ∀ p ∈ b, range.end_ < p.1) :
    SortedMap.insert (hullStart range.start m) (hullEnd range.end_ m)
        ((m.map Prod.fst).foldl (fun l s => SortedMap.remove s l) x.spans) =
      a ++ (hullStart range.start m, hullEnd range.end_ m) :: b := by
  have hc := hx.canonical
  rw [hspans] at hc
  obtain ⟨hcam, hcb, hab⟩ := canonical_append.mp hc
  obtain ⟨hca, hcm, ham⟩ := canonical_append.mp hcam
  have hnew := hc.replace hlt ha hb
  obtain ⟨-, hnew, hnewa⟩ := canonical_append.mp hnew
  have hgone : (m.map Prod.fst).foldl (fun l s => SortedMap.remove s l) x.spans = a ++ b := by
    rw [SortedMap.foldl_remove, hspans, List.filter_append, List.filter_append]
    have h1 : a.filter (fun p => decide (p.1 ∉ m.map Prod.fst)) = a := by
      refine List.filter_eq_self.mpr fun p hp => ?_
      simp only [List.mem_map, decide_eq_true_eq]
      rintro ⟨q, hq, h⟩
      have := ham p hp q hq
      have := hca.pos p hp
      omega
    have h2 : m.filter (fun p => decide (p.1 ∉ m.map Prod.fst)) = [] :=
      List.filter_eq_nil_iff.mpr fun p hp => by
        simpa using ⟨p.2, hp⟩
    have h3 : b.filter (fun p => decide (p.1 ∉ m.map Prod.fst)) = b := by
      refine List.filter_eq_self.mpr fun p hp => ?_
      simp only [List.mem_map, decide_eq_true_eq]
      rintro ⟨q, hq, h⟩
      have := hab q (by simp [hq]) p hp
      have := hcm.pos q hq
      omega
    rw [h1, h2, h3, List.append_nil]
  rw [hgone]
  refine SortedMap.insert_append _ _ a b (fun p hp => ?_) fun p hp => ?_
  · exact (hca.pos p hp).trans (hnewa p hp _ List.mem_cons_self)
  · exact (hnew.pos _ (by simp)).trans ((canonical_cons.mp hnew).2.1 p hp)

end Split

/-- What one call of `insert` does to a valid record. -/
structure InsertSpec (x : Raw) (range : ByteRange) (added : ℕ) (y : Raw) : Prop where
  valid : y.Valid
  cover_eq : cover y.spans = cover x.spans ∪ range.bytes
  added_eq : added = (range.bytes \ cover x.spans).card
  total_eq : y.total = x.total + added

theorem insert_spec {x : Raw} (hx : x.Valid) (range : ByteRange) :
    ∃ added y, x.insert range = some (added, y) ∧ InsertSpec x range added y := by
  by_cases hempty : range.isEmpty
  · have hbytes : range.bytes = ∅ := by
      simp [ByteRange.bytes, ByteRange.isEmpty_eq_true.mp hempty]
    refine ⟨0, x, by simp [insert, hempty], hx, by simp [hbytes], by simp [hbytes], rfl⟩
  have hlt : range.start < range.end_ := ByteRange.isEmpty_eq_false.mp (by simpa using hempty)
  obtain ⟨a, m, b, hspans, ha, hm, hb⟩ := exists_split hx.canonical range.start range.end_
  have hc := hx.canonical
  rw [hspans] at hc
  have hcm : Canonical m := (canonical_append.mp (canonical_append.mp hc).1).2.1
  set lo := hullStart range.start m
  set hi := hullEnd range.end_ m
  have hnew : Canonical (a ++ (lo, hi) :: b) := hc.replace hlt ha hb
  have hcover : cover (a ++ (lo, hi) :: b) = cover x.spans ∪ range.bytes := by
    rw [hspans]
    exact cover_replace hc hm
  have hhull : Finset.Ico lo hi = range.bytes ∪ cover m := Ico_hull hcm hm
  have hadded : hi - lo - size m = (range.bytes \ cover x.spans).card := by
    have h1 : (range.bytes \ cover x.spans) = Finset.Ico lo hi \ cover m := by
      ext z
      simp only [Finset.mem_sdiff, hhull, Finset.mem_union, hspans, cover_append]
      have hza : z ∈ range.bytes → z ∉ cover a := by
        intro hz hza
        obtain ⟨p, hp, -, h⟩ := mem_cover.mp hza
        have := ha p hp
        have := (Finset.mem_Ico.mp hz).1
        omega
      have hzb : z ∈ range.bytes → z ∉ cover b := by
        intro hz hzb
        obtain ⟨p, hp, h, -⟩ := mem_cover.mp hzb
        have := hb p hp
        have := (Finset.mem_Ico.mp hz).2
        omega
      tauto
    rw [h1, Finset.card_sdiff_of_subset (by rw [hhull]; exact Finset.subset_union_right),
      Nat.card_Ico, card_cover hcm]
  have hbound : ∀ p ∈ a ++ (lo, hi) :: b, p.2 < 2 ^ 64 := by
    intro p hp
    rcases List.mem_append.mp hp with hp | hp
    · exact hx.bounded p (by simp [hspans, hp])
    · rcases List.mem_cons.mp hp with rfl | hp
      · exact hullEnd_lt range.bounded fun q hq => hx.bounded q (by simp [hspans, hq])
      · exact hx.bounded p (by simp [hspans, hp])
  have hsize : size (a ++ (lo, hi) :: b) = x.total + (range.bytes \ cover x.spans).card := by
    rw [hx.total_eq, ← card_cover hnew, ← card_cover hx.canonical, hcover,
      ← Finset.card_union_of_disjoint Finset.disjoint_sdiff, Finset.union_sdiff_self_eq_union]
  have htotal : x.total + (range.bytes \ cover x.spans).card < 2 ^ 64 := by
    have := size_le hnew (n := 2 ^ 64 - 1) fun p hp => by
      have := hbound p hp
      omega
    omega
  have hle : lo ≤ hi := (hnew.pos (lo, hi) (by simp)).le
  have hsub : size m ≤ hi - lo := by
    rw [← card_cover hcm, ← Nat.card_Ico, hhull]
    exact Finset.card_le_card Finset.subset_union_right
  refine ⟨(range.bytes \ cover x.spans).card,
    ⟨a ++ (lo, hi) :: b, x.total + (range.bytes \ cover x.spans).card⟩, ?_,
    ⟨hnew, hbound, hsize.symm⟩, hcover, rfl, rfl⟩
  have habsorb := absorb_eq hx hspans hlt ha hm hb
  have hreplace := replace_eq hx hspans hlt ha hb
  simp only [insert, hempty, Bool.false_eq_true, if_false]
  rw [← bind_assoc, habsorb, Option.bind_eq_bind, Option.bind_some]
  simp only [hreplace]
  change (do
    let width ← U64.checkedSub hi lo
    let added ← U64.checkedSub width (size m)
    let total ← U64.checkedAdd x.total added
    return (added, (⟨a ++ (lo, hi) :: b, total⟩ : Raw))) = _
  simp only [U64.checkedSub_of_le hle, U64.checkedSub_of_le hsub, hadded,
    U64.checkedAdd_of_lt htotal, Option.bind_eq_bind, Option.bind_some]
  rfl

theorem covers_iff {x : Raw} (hx : x.Valid) (range : ByteRange) :
    x.covers range = true ↔ range.bytes ⊆ cover x.spans := by
  by_cases hempty : range.isEmpty
  · simp [covers, hempty, ByteRange.bytes, ByteRange.isEmpty_eq_true.mp hempty]
  have hlt : range.start < range.end_ := ByteRange.isEmpty_eq_false.mp (by simpa using hempty)
  rw [ByteRange.bytes, Ico_subset_cover hx.canonical hlt]
  simp only [covers, hempty, Bool.false_or, Option.any_eq_true, decide_eq_true_eq]
  constructor
  · rintro ⟨p, hp, h⟩
    obtain ⟨hmem, hle⟩ := SortedMap.lastUpTo_mem hp
    exact ⟨p, hmem, hle, h⟩
  · rintro ⟨p, hp, h1, h2⟩
    obtain ⟨q, hq⟩ := SortedMap.lastUpTo_isSome hp h1
    refine ⟨q, hq, ?_⟩
    rcases SortedMap.lastUpTo_of_pairwise hx.canonical.sorted hq hp h1 with rfl | h
    · exact h2
    · -- a later span up to the start would begin inside `p`
      have := (SortedMap.lastUpTo_mem hq).2
      omega

/-- The union of a list of ranges. -/
def unionBytes (ranges : List ByteRange) : Finset ℕ :=
  ranges.foldr (fun range s => range.bytes ∪ s) ∅

@[simp] theorem unionBytes_nil : unionBytes [] = ∅ := rfl

@[simp] theorem unionBytes_cons (range : ByteRange) (ranges : List ByteRange) :
    unionBytes (range :: ranges) = range.bytes ∪ unionBytes ranges := rfl

theorem inserts_spec (ranges : List ByteRange) {x : Raw} (hx : x.Valid) :
    ∃ added y, x.inserts ranges = some (added, y) ∧ y.Valid ∧
      cover y.spans = cover x.spans ∪ unionBytes ranges ∧
      (∀ i, added[i]? = ranges[i]?.map fun range =>
        (range.bytes \ (cover x.spans ∪ unionBytes (ranges.take i))).card) ∧
      y.total = x.total + added.sum := by
  induction ranges generalizing x with
  | nil => exact ⟨[], x, rfl, hx, by simp, by simp, by simp⟩
  | cons range ranges ih =>
    obtain ⟨n, y, hy, hspec⟩ := insert_spec hx range
    obtain ⟨added, z, hz, hvalid, hcover, hadded, htotal⟩ := ih hspec.valid
    refine ⟨n :: added, z, by simp [inserts, hy, hz], hvalid, ?_, ?_, ?_⟩
    · rw [hcover, hspec.cover_eq, unionBytes_cons, Finset.union_assoc]
    · intro i
      cases i with
      | zero => simp [hspec.added_eq]
      | succ i => simp [hadded i, hspec.cover_eq, Finset.union_assoc]
    · rw [htotal, hspec.total_eq, List.sum_cons, Nat.add_assoc]

/-- From the empty value no call overflows, the spans stay canonical, each call
returns the number of new bytes, and the record answers for exactly the union
of the inserted ranges. -/
theorem inserts_faithful (ranges : List ByteRange) :
    ∃ added x, empty.inserts ranges = some (added, x) ∧ Canonical x.spans ∧
      (∀ i, added[i]? = ranges[i]?.map fun range =>
        (range.bytes \ unionBytes (ranges.take i)).card) ∧
      x.total = added.sum ∧ x.total = (unionBytes ranges).card ∧
      ∀ range : ByteRange, x.covers range = true ↔ range.bytes ⊆ unionBytes ranges := by
  obtain ⟨added, x, hrun, hx, hcover, hadded, htotal⟩ := inserts_spec ranges valid_empty
  have hunion : cover x.spans = unionBytes ranges := by simpa [empty] using hcover
  refine ⟨added, x, hrun, hx.canonical, fun i => ?_, ?_, ?_, fun range => ?_⟩
  · simpa [empty] using hadded i
  · simpa [empty] using htotal
  · rw [hx.total_eq, ← card_cover hx.canonical, hunion]
  · rw [covers_iff hx, hunion]

end Raw

end Extents

/-- A record that only `insert` has written: its spans are canonical and its
total is their size, so no invalid one can be built. -/
structure Extents where
  raw : Extents.Raw
  valid : raw.Valid

namespace Extents

def empty : Extents := ⟨Raw.empty, Raw.valid_empty⟩

def spans (x : Extents) : List (ℕ × ℕ) := x.raw.spans

def total (x : Extents) : ℕ := x.raw.total

theorem insert_isSome (x : Extents) (range : ByteRange) : (x.raw.insert range).isSome := by
  obtain ⟨added, y, h, -⟩ := Raw.insert_spec x.valid range
  simp [h]

theorem insert_valid (x : Extents) (range : ByteRange) :
    ((x.raw.insert range).get (x.insert_isSome range)).2.Valid := by
  obtain ⟨added, y, h, hspec⟩ := Raw.insert_spec x.valid range
  simpa [h] using hspec.valid

def insert (x : Extents) (range : ByteRange) : ℕ × Extents :=
  let result := (x.raw.insert range).get (x.insert_isSome range)
  (result.1, ⟨result.2, x.insert_valid range⟩)

def covers (x : Extents) (range : ByteRange) : Bool := x.raw.covers range

/-- The bytes a record accounts for. -/
def bytes (x : Extents) : Finset ℕ := cover x.spans

@[ext] theorem ext {x y : Extents} (h : x.raw = y.raw) : x = y := by
  cases x
  cases y
  cases h
  rfl

instance : DecidableEq Extents := fun x y => decidable_of_iff (x.raw = y.raw) Extents.ext_iff.symm

theorem insert_spec (x : Extents) (range : ByteRange) :
    Raw.InsertSpec x.raw range (x.insert range).1 (x.insert range).2.raw := by
  obtain ⟨added, y, h, hspec⟩ := Raw.insert_spec x.valid range
  simpa [insert, h] using hspec

@[simp] theorem bytes_empty : empty.bytes = ∅ := rfl

@[simp] theorem total_empty : empty.total = 0 := rfl

@[simp] theorem bytes_insert (x : Extents) (range : ByteRange) :
    (x.insert range).2.bytes = x.bytes ∪ range.bytes := (x.insert_spec range).cover_eq

theorem added_insert (x : Extents) (range : ByteRange) :
    (x.insert range).1 = (range.bytes \ x.bytes).card := (x.insert_spec range).added_eq

@[simp] theorem total_insert (x : Extents) (range : ByteRange) :
    (x.insert range).2.total = x.total + (x.insert range).1 := (x.insert_spec range).total_eq

theorem total_eq_card (x : Extents) : x.total = x.bytes.card := by
  rw [bytes, spans, card_cover x.valid.canonical]
  exact x.valid.total_eq

theorem covers_iff (x : Extents) (range : ByteRange) :
    x.covers range = true ↔ range.bytes ⊆ x.bytes := Raw.covers_iff x.valid range

theorem insert_of_isEmpty (x : Extents) {range : ByteRange} (h : range.isEmpty = true) :
    x.insert range = (0, x) := by
  have hraw : x.raw.insert range = some (0, x.raw) := by simp [Raw.insert, h]
  simp [insert, hraw]

end Extents

end Rustorr
