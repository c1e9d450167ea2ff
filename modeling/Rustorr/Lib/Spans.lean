import Mathlib.Algebra.BigOperators.Group.List.Basic
import Mathlib.Algebra.GroupWithZero.Nat
import Mathlib.Order.Interval.Finset.Nat
import Mathlib.Data.Finset.Lattice.Fold

/-! Sets of points kept as a list of half-open spans. A canonical list is
sorted, has no empty span and leaves a gap between neighbours, so that a
maximal covered stretch is always one span. -/

namespace Spans

section Order
variable {α : Type*} [LinearOrder α]

structure Canonical (l : List (α × α)) : Prop where
  pos : ∀ p ∈ l, p.1 < p.2
  sorted : l.Pairwise fun p q => p.2 < q.1

theorem canonical_nil : Canonical ([] : List (α × α)) := ⟨by simp, List.Pairwise.nil⟩

theorem canonical_cons {p : α × α} {l : List (α × α)} :
    Canonical (p :: l) ↔ p.1 < p.2 ∧ (∀ q ∈ l, p.2 < q.1) ∧ Canonical l := by
  constructor
  · rintro ⟨hpos, hsorted⟩
    rw [List.pairwise_cons] at hsorted
    exact ⟨hpos p (by simp), hsorted.1, ⟨fun q hq => hpos q (by simp [hq]), hsorted.2⟩⟩
  · rintro ⟨hp, hpl, hl⟩
    exact ⟨by simpa using ⟨hp, fun a b h => hl.pos (a, b) h⟩, List.pairwise_cons.mpr ⟨hpl, hl.sorted⟩⟩

theorem canonical_append {a b : List (α × α)} :
    Canonical (a ++ b) ↔ Canonical a ∧ Canonical b ∧ ∀ p ∈ a, ∀ q ∈ b, p.2 < q.1 := by
  constructor
  · rintro ⟨hpos, hsorted⟩
    rw [List.pairwise_append] at hsorted
    exact ⟨⟨fun p hp => hpos p (by simp [hp]), hsorted.1⟩,
      ⟨fun p hp => hpos p (by simp [hp]), hsorted.2.1⟩, hsorted.2.2⟩
  · rintro ⟨ha, hb, hab⟩
    refine ⟨fun p hp => ?_, List.pairwise_append.mpr ⟨ha.sorted, hb.sorted, hab⟩⟩
    rcases List.mem_append.mp hp with hp | hp
    · exact ha.pos p hp
    · exact hb.pos p hp

/-- Around a range every canonical list falls into the spans that end before
it, the ones that overlap or touch it, and the ones that begin after it. -/
theorem exists_split {l : List (α × α)} (hl : Canonical l) (lo hi : α) :
    ∃ a m b, l = a ++ m ++ b ∧ (∀ p ∈ a, p.2 < lo) ∧
      (∀ p ∈ m, lo ≤ p.2 ∧ p.1 ≤ hi) ∧ ∀ p ∈ b, hi < p.1 := by
  induction l with
  | nil => exact ⟨[], [], [], by simp⟩
  | cons p l ih =>
    obtain ⟨hp, hpl, hl⟩ := canonical_cons.mp hl
    obtain ⟨a, m, b, rfl, ha, hm, hb⟩ := ih hl
    by_cases h1 : p.2 < lo
    · exact ⟨p :: a, m, b, by simp, by simpa using ⟨h1, fun x y => ha (x, y)⟩, hm, hb⟩
    · -- `p` reaches the range, so nothing behind it ends before the range
      have ha' : a = [] := by
        cases a with
        | nil => rfl
        | cons q a =>
          have h2 : q.2 < lo := ha q (by simp)
          have h3 : p.2 < q.1 := hpl q (by simp)
          have h4 : q.1 < q.2 := hl.pos q (by simp)
          exact absurd ((h3.trans h4).trans h2) h1
      subst ha'
      by_cases h2 : p.1 ≤ hi
      · exact ⟨[], p :: m, b, by simp, by simp,
          by simpa using ⟨⟨not_lt.mp h1, h2⟩, fun x y => hm (x, y)⟩, hb⟩
      · refine ⟨[], [], p :: (m ++ b), by simp, by simp, by simp, ?_⟩
        intro q hq
        rcases List.mem_cons.mp hq with rfl | hq
        · exact not_le.mp h2
        · exact ((not_le.mp h2).trans hp).trans (hpl q (by simpa using hq))

/-- The common end of a range and the spans it absorbs. -/
def hullEnd (hi : α) (m : List (α × α)) : α := m.foldl (fun e p => max e p.2) hi

theorem le_hullEnd (hi : α) (m : List (α × α)) : hi ≤ hullEnd hi m := by
  induction m generalizing hi with
  | nil => exact le_rfl
  | cons p m ih => exact (le_max_left hi p.2).trans (ih (max hi p.2))

theorem mem_le_hullEnd (hi : α) {m : List (α × α)} {p : α × α} (hp : p ∈ m) :
    p.2 ≤ hullEnd hi m := by
  induction m generalizing hi with
  | nil => simp at hp
  | cons q m ih =>
    rcases List.mem_cons.mp hp with rfl | hp
    · exact (le_max_right hi p.2).trans (le_hullEnd _ m)
    · exact ih (max hi q.2) hp

theorem hullEnd_lt {hi c : α} {m : List (α × α)} (h : hi < c) (hm : ∀ p ∈ m, p.2 < c) :
    hullEnd hi m < c := by
  induction m generalizing hi with
  | nil => exact h
  | cons p m ih => exact ih (max_lt h (hm p (by simp))) fun q hq => hm q (by simp [hq])

/-- A point below the hull's end lies in the range or under an absorbed span. -/
theorem lt_hullEnd {hi x : α} {m : List (α × α)} (h : x < hullEnd hi m) :
    x < hi ∨ ∃ p ∈ m, x < p.2 := by
  induction m generalizing hi with
  | nil => exact Or.inl h
  | cons p m ih =>
    rcases ih h with h | ⟨q, hq, h⟩
    · rcases lt_max_iff.mp h with h | h
      · exact Or.inl h
      · exact Or.inr ⟨p, by simp, h⟩
    · exact Or.inr ⟨q, by simp [hq], h⟩

/-- The common start of a range and the spans it absorbs: only the first of
them can begin earlier. -/
def hullStart (lo : α) : List (α × α) → α
  | [] => lo
  | p :: _ => min lo p.1

theorem hullStart_le (lo : α) (m : List (α × α)) : hullStart lo m ≤ lo := by
  cases m with
  | nil => exact le_rfl
  | cons p m => exact min_le_left _ _

theorem hullStart_le_mem {m : List (α × α)} (hm : Canonical m) (lo : α) {p : α × α}
    (hp : p ∈ m) : hullStart lo m ≤ p.1 := by
  cases m with
  | nil => simp at hp
  | cons q m =>
    obtain ⟨hq, hqm, -⟩ := canonical_cons.mp hm
    rcases List.mem_cons.mp hp with rfl | hp
    · exact min_le_right _ _
    · exact (min_le_right _ _).trans (hq.trans (hqm p hp)).le

/-- Replacing the spans around a range by their hull keeps the list canonical. -/
theorem Canonical.replace {a m b : List (α × α)} (h : Canonical (a ++ m ++ b)) {lo hi : α}
    (hlt : lo < hi) (ha : ∀ p ∈ a, p.2 < lo) (hb : ∀ p ∈ b, hi < p.1) :
    Canonical (a ++ (hullStart lo m, hullEnd hi m) :: b) := by
  obtain ⟨ham, hcb, hab⟩ := canonical_append.mp h
  obtain ⟨hca, hcm, hamm⟩ := canonical_append.mp ham
  have hend : ∀ q ∈ b, hullEnd hi m < q.1 := fun q hq =>
    hullEnd_lt (hb q hq) fun p hp => hab p (by simp [hp]) q hq
  have hstart : ∀ p ∈ a, p.2 < hullStart lo m := by
    intro p hp
    cases m with
    | nil => exact ha p hp
    | cons q m => exact lt_min (ha p hp) (hamm p hp q (by simp))
  refine canonical_append.mpr ⟨hca, canonical_cons.mpr
    ⟨(hullStart_le lo m).trans_lt (hlt.trans_le (le_hullEnd hi m)), hend, hcb⟩, ?_⟩
  intro p hp q hq
  rcases List.mem_cons.mp hq with rfl | hq
  · exact hstart p hp
  · exact hab p (by simp [hp]) q hq

end Order

section Cover
variable {α : Type*} [LinearOrder α] [LocallyFiniteOrder α]

def cover (l : List (α × α)) : Finset α :=
  l.foldr (fun p s => Finset.Ico p.1 p.2 ∪ s) ∅

@[simp] theorem cover_nil : cover ([] : List (α × α)) = ∅ := rfl

@[simp] theorem cover_cons (p : α × α) (l : List (α × α)) :
    cover (p :: l) = Finset.Ico p.1 p.2 ∪ cover l := rfl

theorem mem_cover {l : List (α × α)} {x : α} : x ∈ cover l ↔ ∃ p ∈ l, p.1 ≤ x ∧ x < p.2 := by
  induction l with
  | nil => simp
  | cons p l ih => simp [ih]

@[simp] theorem cover_append (a b : List (α × α)) : cover (a ++ b) = cover a ∪ cover b := by
  ext x
  simp only [mem_cover, Finset.mem_union, List.mem_append, or_and_right, exists_or]

/-- The hull of a range with the spans that overlap or touch it covers the
range, these spans and nothing else. -/
theorem Ico_hull {m : List (α × α)} (hm : Canonical m) {lo hi : α}
    (hmid : ∀ p ∈ m, lo ≤ p.2 ∧ p.1 ≤ hi) :
    Finset.Ico (hullStart lo m) (hullEnd hi m) = Finset.Ico lo hi ∪ cover m := by
  ext x
  simp only [Finset.mem_Ico, Finset.mem_union, mem_cover]
  constructor
  · rintro ⟨h1, h2⟩
    by_cases hx : lo ≤ x ∧ x < hi
    · exact Or.inl hx
    · right
      by_cases hlo : lo ≤ x
      · rcases lt_hullEnd h2 with h | ⟨p, hp, h⟩
        · exact absurd ⟨hlo, h⟩ hx
        · exact ⟨p, hp, (hmid p hp).2.trans (not_lt.mp fun h => hx ⟨hlo, h⟩), h⟩
      · have hlo := not_le.mp hlo
        cases m with
        | nil => exact absurd (h1.trans_lt hlo) (lt_irrefl _)
        | cons p m =>
          rcases min_le_iff.mp h1 with h | h
          · exact absurd (h.trans_lt hlo) (lt_irrefl _)
          · exact ⟨p, by simp, h, hlo.trans_le (hmid p (by simp)).1⟩
  · rintro (⟨h1, h2⟩ | ⟨p, hp, h1, h2⟩)
    · exact ⟨(hullStart_le lo m).trans h1, h2.trans_le (le_hullEnd hi m)⟩
    · exact ⟨(hullStart_le_mem hm lo hp).trans h1, h2.trans_le (mem_le_hullEnd hi hp)⟩

theorem cover_replace {a m b : List (α × α)} (h : Canonical (a ++ m ++ b)) {lo hi : α}
    (hmid : ∀ p ∈ m, lo ≤ p.2 ∧ p.1 ≤ hi) :
    cover (a ++ (hullStart lo m, hullEnd hi m) :: b) = cover (a ++ m ++ b) ∪ Finset.Ico lo hi := by
  have hm : Canonical m := (canonical_append.mp (canonical_append.mp h).1).2.1
  rw [cover_append, cover_cons, Ico_hull hm hmid, cover_append, cover_append]
  ext x
  simp only [Finset.mem_union]
  tauto

/-- A non-empty range is covered exactly when one span holds all of it. -/
theorem Ico_subset_cover {l : List (α × α)} (hl : Canonical l) {lo hi : α} (hlt : lo < hi) :
    Finset.Ico lo hi ⊆ cover l ↔ ∃ p ∈ l, p.1 ≤ lo ∧ hi ≤ p.2 := by
  constructor
  · intro hsub
    obtain ⟨p, hp, h1, h2⟩ := mem_cover.mp (hsub (Finset.mem_Ico.mpr ⟨le_rfl, hlt⟩))
    refine ⟨p, hp, h1, ?_⟩
    by_contra hlt'
    -- the first point behind `p` would need a second span touching `p`
    obtain ⟨q, hq, h3, h4⟩ := mem_cover.mp
      (hsub (Finset.mem_Ico.mpr ⟨h2.le, not_le.mp hlt'⟩))
    have hne : p ≠ q := fun h => by subst h; exact absurd h4 (lt_irrefl _)
    have hgap : p.2 < q.1 ∨ q.2 < p.1 := by
      obtain ⟨s, t, rfl⟩ := List.append_of_mem hp
      obtain ⟨-, hpt, hst⟩ := canonical_append.mp hl
      rcases List.mem_append.mp hq with hq | hq
      · exact Or.inr (hst q hq p (by simp))
      · rcases List.mem_cons.mp hq with hq | hq
        · exact absurd hq.symm hne
        · exact Or.inl ((canonical_cons.mp hpt).2.1 q hq)
    rcases hgap with h | h
    · exact absurd (h3.trans_lt h) (lt_irrefl _)
    · exact absurd ((h.trans (hl.pos p hp)).trans h4) (lt_irrefl _)
  · rintro ⟨p, hp, h1, h2⟩ x hx
    obtain ⟨h3, h4⟩ := Finset.mem_Ico.mp hx
    exact mem_cover.mpr ⟨p, hp, h1.trans h3, h4.trans_le h2⟩

/-- No span behind `p` reaches back to it, so what is left without `p` is the rest. -/
theorem cover_tail {p : α × α} {l : List (α × α)} (h : Canonical (p :: l)) :
    cover l = cover (p :: l) \ Finset.Ico p.1 p.2 := by
  obtain ⟨hp, hpl, -⟩ := canonical_cons.mp h
  ext x
  simp only [cover_cons, Finset.mem_sdiff, Finset.mem_union]
  constructor
  · intro hx
    refine ⟨Or.inr hx, fun hx' => ?_⟩
    obtain ⟨q, hq, h1, -⟩ := mem_cover.mp hx
    exact absurd ((hpl q hq).trans_le h1) (Finset.mem_Ico.mp hx').2.not_gt
  · rintro ⟨hx | hx, hne⟩
    · exact absurd hx hne
    · exact hx

theorem head_le_of_mem {p : α × α} {l : List (α × α)} (h : Canonical (p :: l)) {x : α}
    (hx : x ∈ cover (p :: l)) : p.1 ≤ x := by
  obtain ⟨hp, hpl, -⟩ := canonical_cons.mp h
  obtain ⟨q, hq, h1, -⟩ := mem_cover.mp hx
  rcases List.mem_cons.mp hq with rfl | hq
  · exact h1
  · exact ((hp.trans (hpl q hq)).trans_le h1).le

theorem head_end_notMem {p : α × α} {l : List (α × α)} (h : Canonical (p :: l)) :
    p.2 ∉ cover (p :: l) := by
  intro hx
  obtain ⟨q, hq, h1, h2⟩ := mem_cover.mp hx
  rcases List.mem_cons.mp hq with rfl | hq
  · exact absurd h2 (lt_irrefl _)
  · exact absurd ((canonical_cons.mp h).2.1 q hq) h1.not_gt

/-- A set has only one canonical list. -/
theorem canonical_unique {a b : List (α × α)} (ha : Canonical a) (hb : Canonical b)
    (h : cover a = cover b) : a = b := by
  have first : ∀ (p : α × α) (l : List (α × α)), Canonical (p :: l) → p.1 ∈ cover (p :: l) :=
    fun p l hl => mem_cover.mpr ⟨p, by simp, le_rfl, (canonical_cons.mp hl).1⟩
  induction a generalizing b with
  | nil =>
    cases b with
    | nil => rfl
    | cons q b => exact absurd (h ▸ first q b hb) (by simp)
  | cons p a ih =>
    cases b with
    | nil => exact absurd (h ▸ first p a ha) (by simp)
    | cons q b =>
      have hstart : p.1 = q.1 :=
        le_antisymm (head_le_of_mem ha (h ▸ first q b hb)) (head_le_of_mem hb (h ▸ first p a ha))
      have hend : p.2 = q.2 := by
        rcases lt_trichotomy p.2 q.2 with hlt | heq | hgt
        · -- the point where `p` ends would still lie under `q`
          refine absurd (h ▸ mem_cover.mpr ⟨q, by simp, ?_, hlt⟩) (head_end_notMem ha)
          exact hstart ▸ (canonical_cons.mp ha).1.le
        · exact heq
        · refine absurd (h ▸ mem_cover.mpr ⟨p, by simp, ?_, hgt⟩) (head_end_notMem hb)
          exact hstart ▸ (canonical_cons.mp hb).1.le
      obtain rfl : p = q := Prod.ext hstart hend
      rw [ih (canonical_cons.mp ha).2.2 (canonical_cons.mp hb).2.2
        (by rw [cover_tail ha, cover_tail hb, h])]

end Cover

section Size

/-- The number of points a span list holds when its spans are disjoint. -/
def size (l : List (ℕ × ℕ)) : ℕ := (l.map fun p => p.2 - p.1).sum

@[simp] theorem size_nil : size [] = 0 := rfl

@[simp] theorem size_cons (p : ℕ × ℕ) (l : List (ℕ × ℕ)) : size (p :: l) = p.2 - p.1 + size l := rfl

@[simp] theorem size_append (a b : List (ℕ × ℕ)) : size (a ++ b) = size a + size b := by
  simp [size]

theorem card_cover {l : List (ℕ × ℕ)} (hl : Canonical l) : (cover l).card = size l := by
  induction l with
  | nil => rfl
  | cons p l ih =>
    obtain ⟨hp, hpl, hl⟩ := canonical_cons.mp hl
    have hdis : Disjoint (Finset.Ico p.1 p.2) (cover l) := by
      rw [Finset.disjoint_left]
      intro x hx hx'
      obtain ⟨q, hq, h1, h2⟩ := mem_cover.mp hx'
      have := hpl q hq
      have := (Finset.mem_Ico.mp hx).2
      omega
    rw [cover_cons, Finset.card_union_of_disjoint hdis, ih hl, Nat.card_Ico, size_cons]

theorem size_le {l : List (ℕ × ℕ)} (hl : Canonical l) {n : ℕ} (h : ∀ p ∈ l, p.2 ≤ n) :
    size l ≤ n := by
  rw [← card_cover hl, ← Finset.card_range n]
  refine Finset.card_le_card fun x hx => ?_
  obtain ⟨p, hp, -, h2⟩ := mem_cover.mp hx
  exact Finset.mem_range.mpr (h2.trans_le (h p hp))

end Size

end Spans
