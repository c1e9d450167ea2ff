import Mathlib.Data.Finset.Card
import Rustorr.Http.LockTable

/-! What every call keeps of the lock table: tokens, counts and depths agree
with the live locks, and locks do not conflict. -/

namespace Rustorr

/-- A live lock. -/
structure Grant where
  details : LockDetails
  token : List Char
  expiry : Option ℕ
  held : Bool
  deriving DecidableEq, Repr

namespace MemLs

open Rustorr.Path

/-- The lock of a node; a node without token only counts the locks below it. -/
def Node.grant (node : Node) : Option Grant :=
  if node.token = [] then none else some ⟨node.details, node.token, node.expiry, node.held⟩

/-- The live lock at `p`. -/
def granted (t : MemLs) (p : Path) : Option Grant := (t.byName.lookup p).bind Node.grant

/-- The paths with a live lock. -/
def roots (t : MemLs) : Finset Path :=
  (t.byName.keys.filter fun p => (t.granted p).isSome).toFinset

/-- How many live locks are at or below `p`. -/
def below (t : MemLs) (p : Path) : ℕ := (t.roots.filter (Covers p ·)).card

structure Wf (t : MemLs) : Prop where
  rooted : ∀ p node, t.byName.lookup p = some node → Rooted p ∧ node.details.root = p
  counts : ∀ p node, t.byName.lookup p = some node → node.refCount = t.below p
  names : ∀ p, p ∈ t.byName ↔ ∃ q ∈ t.roots, Covers p q
  tokens : ∀ token p, t.byToken.lookup token = some p ↔ ∃ g, t.granted p = some g ∧ g.token = token
  apart : ∀ p q g, t.granted p = some g → q ∈ t.roots → q ≠ p → Covers p q →
    g.details.zeroDepth = true
  held : ∀ p node, t.byName.lookup p = some node → node.held = true → node.token ≠ []
  minted : ∀ p g, t.granted p = some g → ∃ m ≤ t.generation, g.token = Text.decimal m

theorem Node.grant_eq_some {node : Node} {g : Grant} :
    node.grant = some g ↔ node.token ≠ [] ∧ g = ⟨node.details, node.token, node.expiry, node.held⟩ := by
  unfold Node.grant
  by_cases h : node.token = []
  · simp [h]
  · simp [h, eq_comm]

theorem granted_eq_some {t : MemLs} {p : Path} {g : Grant} :
    t.granted p = some g ↔ ∃ node, t.byName.lookup p = some node ∧ node.grant = some g :=
  Option.bind_eq_some_iff

theorem mem_roots {t : MemLs} {p : Path} : p ∈ t.roots ↔ ∃ g, t.granted p = some g := by
  rw [roots, List.mem_toFinset, List.mem_filter, Option.isSome_iff_exists]
  refine ⟨fun h => h.2, fun h => ⟨?_, h⟩⟩
  obtain ⟨g, hg⟩ := h
  obtain ⟨node, hnode, -⟩ := granted_eq_some.mp hg
  exact AList.mem_keys.mp (AList.lookup_isSome.mp (by rw [hnode]; rfl))

theorem granted_congr {t t' : MemLs} {p : Path} (h : t'.byName.lookup p = t.byName.lookup p) :
    t'.granted p = t.granted p := by
  rw [granted, granted, h]

theorem mem_byName {t : MemLs} {p : Path} : p ∈ t.byName ↔ ∃ node, t.byName.lookup p = some node := by
  rw [← AList.lookup_isSome, Option.isSome_iff_exists]

theorem roots_congr {t t' : MemLs} (h : ∀ p, (t'.granted p).isSome = (t.granted p).isSome) :
    t'.roots = t.roots := by
  ext p
  rw [mem_roots, mem_roots, ← Option.isSome_iff_exists, ← Option.isSome_iff_exists, h]

theorem below_congr {t t' : MemLs} (h : t'.roots = t.roots) (p : Path) : t'.below p = t.below p := by
  rw [below, below, h]

namespace Wf

variable {t : MemLs}

theorem rooted_of_mem_roots (h : t.Wf) {p : Path} (hp : p ∈ t.roots) : Rooted p := by
  obtain ⟨g, hg⟩ := mem_roots.mp hp
  obtain ⟨node, hnode, -⟩ := granted_eq_some.mp hg
  exact (h.rooted p node hnode).1

/-- A token belongs to one lock. -/
theorem token_inj (h : t.Wf) {p q : Path} {g g' : Grant} (hg : t.granted p = some g)
    (hg' : t.granted q = some g') (he : g.token = g'.token) : p = q := by
  have hp := (h.tokens g.token p).mpr ⟨g, hg, rfl⟩
  rw [he, (h.tokens g'.token q).mpr ⟨g', hg', rfl⟩] at hp
  exact (Option.some.inj hp).symm

theorem covers_of_mem_toRoot (h : t.Wf) {p q : Path} (hp : p ∈ t.roots) :
    q ∈ toRoot p ↔ Covers q p := mem_toRoot_iff (h.rooted_of_mem_roots hp)

/-- Every name on the way from a live lock to the root has a node that counts it. -/
theorem node_of_covers (h : t.Wf) {p q : Path} (hp : p ∈ t.roots) (hq : Covers q p) :
    ∃ node, t.byName.lookup q = some node ∧ 0 < node.refCount := by
  obtain ⟨node, hnode⟩ := mem_byName.mp ((h.names q).mpr ⟨p, hp, hq⟩)
  refine ⟨node, hnode, ?_⟩
  rw [h.counts q node hnode]
  exact Finset.card_pos.mpr ⟨p, Finset.mem_filter.mpr ⟨hp, hq⟩⟩

end Wf

theorem wf_new (generation : ℕ) : (new generation).Wf := by
  have hgranted : ∀ p, (new generation).granted p = none := fun p => rfl
  refine ⟨?_, ?_, ?_, ?_, ?_, ?_, ?_⟩
  · intro p node hp
    exact absurd hp (by simp [new])
  · intro p node hp
    exact absurd hp (by simp [new])
  · intro p
    refine ⟨fun hp => absurd hp (AList.notMem_empty p), ?_⟩
    rintro ⟨q, hq, -⟩
    obtain ⟨g, hg⟩ := mem_roots.mp hq
    rw [hgranted] at hg
    cases hg
  · intro token p
    refine ⟨fun e => absurd e (by simp [new]), ?_⟩
    rintro ⟨g, hg, -⟩
    rw [hgranted] at hg
    cases hg
  · intro p q g hg
    rw [hgranted] at hg
    cases hg
  · intro p node hp
    exact absurd hp (by simp [new])
  · intro p g hg
    rw [hgranted] at hg
    cases hg

section Remove

variable {t : MemLs} {p : Path} {g : Grant}

/-- A node after a lock at or below it went. -/
def lessRef (node : Node) : Option Node :=
  if node.refCount = 1 then none else some { node with refCount := node.refCount - 1 }

theorem dropRef_some {node : Node} (h : 0 < node.refCount) :
    dropRef (some node) = .ok (lessRef node) := by
  unfold lessRef
  show (if node.refCount = 0 then _ else if node.refCount - 1 = 0 then _ else _) = _
  rw [if_neg (show node.refCount ≠ 0 by omega)]
  by_cases h1 : node.refCount = 1
  · rw [if_pos (show node.refCount - 1 = 0 by omega), if_pos h1]
  · rw [if_neg (show ¬node.refCount - 1 = 0 by omega), if_neg h1]

/-- The nodes after the lock at `p` went. -/
theorem lookup_remove (h : t.Wf) (hg : t.granted p = some g) :
    ∃ t' node, t.remove p = .ok t' ∧ t.byName.lookup p = some node ∧ node.token = g.token ∧
      t'.generation = t.generation ∧ t'.byToken = t.byToken.erase g.token ∧
      ∀ q, t'.byName.lookup q =
        if q = p then lessRef { node with token := [], expiry := none }
        else if Covers q p then (t.byName.lookup q).bind lessRef else t.byName.lookup q := by
  obtain ⟨node, hnode, hgr⟩ := granted_eq_some.mp hg
  obtain ⟨htok, rfl⟩ := Node.grant_eq_some.mp hgr
  have hp : p ∈ t.roots := mem_roots.mpr ⟨_, hg⟩
  have hrooted := h.rooted_of_mem_roots hp
  have hclear : t.clearToken p = { t with
      byToken := t.byToken.erase node.token
      byName := t.byName.insert p { node with token := [], expiry := none } } := by
    unfold clearToken
    rw [hnode]
  have hlook : ∀ q, (t.clearToken p).byName.lookup q =
      if q = p then some { node with token := [], expiry := none } else t.byName.lookup q := by
    intro q
    rw [hclear]
    by_cases hq : q = p
    · rw [if_pos hq, hq, AList.lookup_insert]
    · rw [if_neg hq, AList.lookup_insert_ne hq]
  have hcount : ∀ q ∈ toRoot p, ∃ n, (t.clearToken p).byName.lookup q = some n ∧ 0 < n.refCount := by
    intro q hq
    obtain ⟨n, hn, hpos⟩ := h.node_of_covers hp ((mem_toRoot_iff hrooted).mp hq)
    rw [hlook]
    by_cases hqp : q = p
    · rw [if_pos hqp]
      refine ⟨_, rfl, ?_⟩
      have : n = node := by
        rw [hqp, hnode] at hn
        exact (Option.some.inj hn).symm
      exact this ▸ hpos
    · exact ⟨n, by rw [if_neg hqp, hn], hpos⟩
  obtain ⟨byName, hvisit, hresult⟩ := Table.visit_spec (f := fun _ => dropRef)
    (g := fun q => ((t.clearToken p).byName.lookup q).bind lessRef) (nodup_toRoot hrooted)
    (t := (t.clearToken p).byName) fun q hq => by
      obtain ⟨n, hn, hpos⟩ := hcount q hq
      rw [hn, dropRef_some hpos]
      rfl
  refine ⟨{ t.clearToken p with byName }, node, ?_, hnode, rfl, ?_, ?_, fun q => ?_⟩
  · show (Table.visit (fun _ => dropRef) (t.clearToken p).byName (toRoot p)).bind _ = _
    rw [hvisit]
    rfl
  · rw [hclear]
  · rw [hclear]
  · show byName.lookup q = _
    rw [hresult q, hlook q]
    by_cases hq : q = p
    · rw [if_pos hq, if_pos hq, if_pos (by rw [hq]; exact self_mem_toRoot hrooted)]
      rfl
    · rw [if_neg hq, if_neg hq]
      by_cases hc : Covers q p
      · rw [if_pos ((mem_toRoot_iff hrooted).mpr hc), if_pos hc]
      · rw [if_neg fun hm => hc ((mem_toRoot_iff hrooted).mp hm), if_neg hc]

theorem lessRef_eq_some {node node' : Node} :
    lessRef node = some node' ↔
      node.refCount ≠ 1 ∧ node' = { node with refCount := node.refCount - 1 } := by
  unfold lessRef
  by_cases h : node.refCount = 1
  · simp [h]
  · simp [h, eq_comm]

/-- Removing a lock leaves the others as they are. -/
theorem granted_remove (h : t.Wf) (hg : t.granted p = some g) {t' : MemLs} {node : Node}
    (hlook : ∀ q, t'.byName.lookup q =
      if q = p then lessRef { node with token := [], expiry := none }
      else if Covers q p then (t.byName.lookup q).bind lessRef else t.byName.lookup q) (q : Path) :
    t'.granted q = if q = p then none else t.granted q := by
  have hp : p ∈ t.roots := mem_roots.mpr ⟨g, hg⟩
  rw [granted, hlook q]
  by_cases hq : q = p
  · rw [if_pos hq, if_pos hq]
    refine Option.eq_none_iff_forall_ne_some.mpr fun x hx => ?_
    obtain ⟨n, hn, hx⟩ := Option.bind_eq_some_iff.mp hx
    obtain ⟨-, rfl⟩ := lessRef_eq_some.mp hn
    exact (Node.grant_eq_some.mp hx).1 rfl
  · rw [if_neg hq, if_neg hq]
    by_cases hc : Covers q p
    · rw [if_pos hc]
      obtain ⟨n, hn, hpos⟩ := h.node_of_covers hp hc
      rw [granted, hn]
      show (lessRef n).bind Node.grant = n.grant
      by_cases h1 : n.refCount = 1
      · -- the removed lock was the only one at or below, so none is at the name itself
        have hnone : n.grant = none := by
          refine Option.eq_none_iff_forall_ne_some.mpr fun x hx => ?_
          have hqr : q ∈ t.roots := mem_roots.mpr ⟨x, granted_eq_some.mpr ⟨n, hn, hx⟩⟩
          have hcard : (t.roots.filter (Covers q ·)).card = 1 := by
            rw [← h1, h.counts q n hn, below]
          obtain ⟨r, hr⟩ := Finset.card_eq_one.mp hcard
          have hpr : p ∈ t.roots.filter (Covers q ·) := Finset.mem_filter.mpr ⟨hp, hc⟩
          have hqr' : q ∈ t.roots.filter (Covers q ·) :=
            Finset.mem_filter.mpr ⟨hqr, Or.inl rfl⟩
          rw [hr, Finset.mem_singleton] at hpr hqr'
          exact hq (hqr'.trans hpr.symm)
        rw [hnone, lessRef, if_pos h1]
        rfl
      · rw [lessRef, if_neg h1]
        rfl
    · rw [if_neg hc]
      rfl

theorem remove_spec (h : t.Wf) (hg : t.granted p = some g) (hheld : g.held = false) :
    ∃ t', t.remove p = .ok t' ∧ t'.Wf ∧ t'.generation = t.generation ∧
      ∀ q, t'.granted q = if q = p then none else t.granted q := by
  obtain ⟨t', node, hok, hnode, htok, hgen, hbt, hlook⟩ := lookup_remove h hg
  have hgranted := granted_remove h hg hlook
  have hp : p ∈ t.roots := mem_roots.mpr ⟨g, hg⟩
  have hroots : t'.roots = t.roots.erase p := by
    ext q
    rw [mem_roots, Finset.mem_erase, mem_roots, hgranted]
    by_cases hq : q = p <;> simp [hq]
  have hbelow : ∀ q, t'.below q = if Covers q p then t.below q - 1 else t.below q := by
    intro q
    rw [below, hroots, Finset.filter_erase, below]
    by_cases hc : Covers q p
    · rw [if_pos hc, Finset.card_erase_of_mem (Finset.mem_filter.mpr ⟨hp, hc⟩)]
    · rw [if_neg hc, Finset.erase_eq_of_notMem fun hm => hc (Finset.mem_filter.mp hm).2]
  have hnodeHeld : node.held = false := by
    obtain ⟨n, hn, hgr⟩ := granted_eq_some.mp hg
    rw [hnode] at hn
    cases hn
    rw [(Node.grant_eq_some.mp hgr).2] at hheld
    exact hheld
  -- every remaining node comes from a node of the old table
  have hold : ∀ q n', t'.byName.lookup q = some n' → ∃ n, t.byName.lookup q = some n ∧
      n'.details = n.details ∧ (n'.held = true → n'.token = n.token ∧ n.held = true) ∧
      n'.refCount = (if Covers q p then n.refCount - 1 else n.refCount) ∧
      (Covers q p → n.refCount ≠ 1) := by
    intro q n' hn'
    rw [hlook q] at hn'
    by_cases hq : q = p
    · rw [if_pos hq] at hn'
      obtain ⟨h1, rfl⟩ := lessRef_eq_some.mp hn'
      have hc : Covers q p := Or.inl hq.symm
      refine ⟨node, hq ▸ hnode, rfl, fun hh => ?_, by rw [if_pos hc], fun _ => h1⟩
      rw [hnodeHeld] at hh
      cases hh
    · rw [if_neg hq] at hn'
      by_cases hc : Covers q p
      · rw [if_pos hc] at hn'
        obtain ⟨n, hn, hl⟩ := Option.bind_eq_some_iff.mp hn'
        obtain ⟨h1, rfl⟩ := lessRef_eq_some.mp hl
        exact ⟨n, hn, rfl, fun hh => ⟨rfl, hh⟩, by rw [if_pos hc], fun _ => h1⟩
      · rw [if_neg hc] at hn'
        exact ⟨n', hn', rfl, fun hh => ⟨rfl, hh⟩, by rw [if_neg hc], fun hc' => absurd hc' hc⟩
  refine ⟨t', hok, ?_, hgen, hgranted⟩
  refine ⟨?_, ?_, ?_, ?_, ?_, ?_, ?_⟩
  · intro q n' hn'
    obtain ⟨n, hn, hd, -⟩ := hold q n' hn'
    rw [hd]
    exact h.rooted q n hn
  · intro q n' hn'
    obtain ⟨n, hn, -, -, hc, -⟩ := hold q n' hn'
    rw [hc, hbelow, h.counts q n hn]
  · intro q
    have hpos : (∃ r ∈ t'.roots, Covers q r) ↔ 0 < t'.below q := by
      rw [below, Finset.card_pos]
      simp [Finset.Nonempty]
    rw [hpos, hbelow, mem_byName]
    constructor
    · rintro ⟨n', hn'⟩
      obtain ⟨n, hn, -, -, -, h1⟩ := hold q n' hn'
      have hcount := h.counts q n hn
      obtain ⟨r, hr, hqr⟩ := (h.names q).mp (mem_byName.mpr ⟨n, hn⟩)
      have hpos : 0 < t.below q := Finset.card_pos.mpr ⟨r, Finset.mem_filter.mpr ⟨hr, hqr⟩⟩
      by_cases hc : Covers q p
      · have := h1 hc
        rw [if_pos hc]
        omega
      · rwa [if_neg hc]
    · intro hb
      have hb' : 0 < t.below q := by
        split at hb <;> omega
      obtain ⟨r, hr⟩ := Finset.card_pos.mp hb'
      obtain ⟨hr, hqr⟩ := Finset.mem_filter.mp hr
      obtain ⟨n, hn, -⟩ := h.node_of_covers hr hqr
      have hcount := h.counts q n hn
      rw [hlook q]
      by_cases hq : q = p
      · rw [if_pos hq]
        have hc : Covers q p := Or.inl hq.symm
        rw [if_pos hc] at hb
        have : n = node := by
          rw [hq, hnode] at hn
          exact (Option.some.inj hn).symm
        exact ⟨_, lessRef_eq_some.mpr ⟨by rw [← this]; show n.refCount ≠ 1; omega, rfl⟩⟩
      · rw [if_neg hq]
        by_cases hc : Covers q p
        · rw [if_pos hc] at hb ⊢
          exact ⟨_, Option.bind_eq_some_iff.mpr ⟨n, hn, lessRef_eq_some.mpr ⟨by omega, rfl⟩⟩⟩
        · rw [if_neg hc]
          exact ⟨n, hn⟩
  · intro token q
    have herase : t'.byToken.lookup token = if token = g.token then none else t.byToken.lookup token := by
      rw [hbt]
      by_cases ht : token = g.token
      · rw [if_pos ht, ht, AList.lookup_erase]
      · rw [if_neg ht, AList.lookup_erase_ne ht]
    rw [herase, hgranted]
    by_cases ht : token = g.token
    · rw [if_pos ht]
      refine ⟨fun e => absurd e (by simp), ?_⟩
      rintro ⟨g', hg', he⟩
      by_cases hq : q = p
      · rw [if_pos hq] at hg'
        cases hg'
      · rw [if_neg hq] at hg'
        exact absurd (h.token_inj hg' hg (he.trans ht)) hq
    · rw [if_neg ht, h.tokens token q]
      by_cases hq : q = p
      · rw [if_pos hq, hq]
        refine ⟨?_, fun ⟨g', hg', _⟩ => by cases hg'⟩
        rintro ⟨g', hg', he⟩
        rw [hg] at hg'
        cases hg'
        exact absurd he.symm ht
      · rw [if_neg hq]
  · intro q r g' hg' hr hne hc
    rw [hgranted] at hg'
    by_cases hq : q = p
    · rw [if_pos hq] at hg'
      cases hg'
    · rw [if_neg hq] at hg'
      rw [hroots] at hr
      exact h.apart q r g' hg' (Finset.mem_of_mem_erase hr) hne hc
  · intro q n' hn' hh
    obtain ⟨n, hn, -, hheld', -⟩ := hold q n' hn'
    rw [(hheld' hh).1]
    exact h.held q n hn (hheld' hh).2
  · intro q g' hg'
    rw [hgranted] at hg'
    by_cases hq : q = p
    · rw [if_pos hq] at hg'
      cases hg'
    · rw [if_neg hq] at hg'
      rw [hgen]
      exact h.minted q g' hg'

end Remove

end MemLs

end Rustorr
