import Rustorr.Lib.Fallible
import Rustorr.Http.LockInvariant

/-! What each call of the lock table does to the live locks, and the invariant
over every sequence of calls. -/

namespace Rustorr

/-- Whether a lock has run out. -/
def Grant.expired (now : ℕ) (g : Grant) : Bool := !g.held && g.expiry.any (· ≤ now)

namespace MemLs

open Rustorr.Path

variable {t : MemLs}

/-- A node may get other contents for the same path, token and depth. -/
theorem Wf.replace (h : t.Wf) {p : Path} {node n : Node} (hnode : t.byName.lookup p = some node)
    (hroot : n.details.root = node.details.root)
    (hdepth : n.details.zeroDepth = node.details.zeroDepth) (htoken : n.token = node.token)
    (hcount : n.refCount = node.refCount) (hheld : n.held = true → node.token ≠ []) :
    ({ t with byName := t.byName.insert p n } : MemLs).Wf ∧
      ∀ q, ({ t with byName := t.byName.insert p n } : MemLs).granted q =
        if q = p then n.grant else t.granted q := by
  set t' : MemLs := { t with byName := t.byName.insert p n } with ht'
  have hlook : ∀ q, t'.byName.lookup q = if q = p then some n else t.byName.lookup q := by
    intro q
    by_cases hq : q = p
    · rw [if_pos hq, hq, ht', AList.lookup_insert]
    · rw [if_neg hq, ht', AList.lookup_insert_ne hq]
  have hgranted : ∀ q, t'.granted q = if q = p then n.grant else t.granted q := by
    intro q
    rw [granted, hlook]
    by_cases hq : q = p
    · rw [if_pos hq, if_pos hq]
      rfl
    · rw [if_neg hq, if_neg hq]
      rfl
  have hp : t.granted p = node.grant := by
    rw [granted, hnode]
    rfl
  have hsome : ∀ q g', t'.granted q = some g' → ∃ g, t.granted q = some g ∧ g.token = g'.token ∧
      g.details.zeroDepth = g'.details.zeroDepth := by
    intro q g' hg'
    rw [hgranted] at hg'
    by_cases hq : q = p
    · rw [if_pos hq] at hg'
      obtain ⟨hne, rfl⟩ := Node.grant_eq_some.mp hg'
      refine ⟨⟨node.details, node.token, node.expiry, node.held⟩, ?_, htoken.symm, hdepth.symm⟩
      rw [hq, hp]
      exact Node.grant_eq_some.mpr ⟨htoken ▸ hne, rfl⟩
    · rw [if_neg hq] at hg'
      exact ⟨g', hg', rfl, rfl⟩
  have hsome' : ∀ q g, t.granted q = some g → ∃ g', t'.granted q = some g' ∧ g.token = g'.token := by
    intro q g hg
    rw [hgranted]
    by_cases hq : q = p
    · rw [hq, hp] at hg
      obtain ⟨hne, rfl⟩ := Node.grant_eq_some.mp hg
      rw [if_pos hq]
      exact ⟨_, Node.grant_eq_some.mpr ⟨htoken.symm ▸ hne, rfl⟩, htoken.symm⟩
    · rw [if_neg hq]
      exact ⟨g, hg, rfl⟩
  have hroots : t'.roots = t.roots := by
    ext q
    rw [mem_roots, mem_roots]
    constructor
    · rintro ⟨g', hg'⟩
      obtain ⟨g, hg, -⟩ := hsome q g' hg'
      exact ⟨g, hg⟩
    · rintro ⟨g, hg⟩
      obtain ⟨g', hg', -⟩ := hsome' q g hg
      exact ⟨g', hg'⟩
  have hold : ∀ q n', t'.byName.lookup q = some n' → ∃ m, t.byName.lookup q = some m ∧
      n'.details.root = m.details.root ∧ n'.refCount = m.refCount ∧ n'.token = m.token ∧
      (n'.held = true → m.token ≠ []) := by
    intro q n' hn'
    rw [hlook] at hn'
    by_cases hq : q = p
    · rw [if_pos hq] at hn'
      cases hn'
      exact ⟨node, hq ▸ hnode, hroot, hcount, htoken, hheld⟩
    · rw [if_neg hq] at hn'
      exact ⟨n', hn', rfl, rfl, rfl, h.held q n' hn'⟩
  refine ⟨⟨?_, ?_, ?_, ?_, ?_, ?_, ?_⟩, hgranted⟩
  · intro q n' hn'
    obtain ⟨m, hm, hr, -⟩ := hold q n' hn'
    rw [hr]
    exact h.rooted q m hm
  · intro q n' hn'
    obtain ⟨m, hm, -, hc, -⟩ := hold q n' hn'
    rw [hc, below_congr hroots]
    exact h.counts q m hm
  · intro q
    rw [hroots, ← h.names q, ht']
    refine (AList.mem_insert _).trans (or_iff_right_of_imp fun hq => ?_)
    exact mem_byName.mpr ⟨node, hq ▸ hnode⟩
  · intro token q
    refine (h.tokens token q).trans ⟨?_, ?_⟩
    · rintro ⟨g, hg, he⟩
      obtain ⟨g', hg', ht⟩ := hsome' q g hg
      exact ⟨g', hg', ht ▸ he⟩
    · rintro ⟨g', hg', he⟩
      obtain ⟨g, hg, ht, -⟩ := hsome q g' hg'
      exact ⟨g, hg, ht ▸ he⟩
  · intro q r g' hg' hr hne hc
    obtain ⟨g, hg, -, hz⟩ := hsome q g' hg'
    rw [← hz]
    exact h.apart q r g hg (hroots ▸ hr) hne hc
  · intro q n' hn' hh
    obtain ⟨m, hm, -, -, ht, hne⟩ := hold q n' hn'
    rw [ht]
    exact hne hh
  · intro q g' hg'
    obtain ⟨g, hg, ht, -⟩ := hsome q g' hg'
    rw [← ht]
    exact h.minted q g hg

/-- Removing locks that are not held, in any order. -/
theorem foldlM_remove_spec (h : t.Wf) {roots : List Path} (hn : roots.Nodup)
    (hroots : ∀ p ∈ roots, ∃ g, t.granted p = some g ∧ g.held = false) :
    ∃ t', roots.foldlM remove t = .ok t' ∧ t'.Wf ∧ t'.generation = t.generation ∧
      ∀ q, t'.granted q = if q ∈ roots then none else t.granted q := by
  induction roots generalizing t with
  | nil => exact ⟨t, rfl, h, rfl, fun q => by simp⟩
  | cons p roots ih =>
    obtain ⟨hp, hn⟩ := List.nodup_cons.mp hn
    obtain ⟨g, hg, hheld⟩ := hroots p (List.mem_cons_self ..)
    obtain ⟨t₁, hok₁, hwf₁, hgen₁, hgr₁⟩ := remove_spec h hg hheld
    obtain ⟨t₂, hok₂, hwf₂, hgen₂, hgr₂⟩ := ih hwf₁ hn fun q hq => by
      have hne : q ≠ p := fun e => hp (e ▸ hq)
      rw [hgr₁, if_neg hne]
      exact hroots q (List.mem_cons_of_mem _ hq)
    refine ⟨t₂, ?_, hwf₂, hgen₂.trans hgen₁, fun q => ?_⟩
    · rw [List.foldlM_cons, hok₁]
      exact hok₂
    · rw [hgr₂, hgr₁]
      by_cases hq : q = p <;> simp [hq]

theorem mem_entries {p : Path} {node : Node} :
    (⟨p, node⟩ : Sigma fun _ : Path => Node) ∈ t.byName.entries ↔ t.byName.lookup p = some node :=
  AList.mem_lookup_iff.symm

theorem Wf.root_of_mem_entries (h : t.Wf) {e : Sigma fun _ : Path => Node}
    (he : e ∈ t.byName.entries) : e.2.details.root = e.1 :=
  (h.rooted e.1 e.2 (mem_entries.mp he)).2

theorem Node.expired_iff {node : Node} {now : ℕ} :
    node.expired now = true ↔ ∃ g, node.grant = some g ∧ g.expired now = true := by
  unfold Node.expired Node.grant Grant.expired
  by_cases h : node.token = []
  · simp [h]
  · simp [h]

theorem Wf.nodup_expiredRoots (h : t.Wf) (now : ℕ) : (t.expiredRoots now).Nodup := by
  have hmap : t.expiredRoots now =
      (t.byName.entries.filter fun e => e.2.expired now).map Sigma.fst := by
    refine List.map_congr_left fun e he => ?_
    exact h.root_of_mem_entries (List.mem_of_mem_filter he)
  rw [hmap]
  exact t.byName.keys_nodup.sublist (List.Sublist.map _ List.filter_sublist)

theorem Wf.mem_expiredRoots (h : t.Wf) {now : ℕ} {p : Path} :
    p ∈ t.expiredRoots now ↔ ∃ g, t.granted p = some g ∧ g.expired now = true := by
  unfold expiredRoots
  rw [List.mem_map]
  constructor
  · rintro ⟨e, he, rfl⟩
    obtain ⟨he, hx⟩ := List.mem_filter.mp he
    obtain ⟨g, hg, hx⟩ := Node.expired_iff.mp hx
    rw [h.root_of_mem_entries he]
    exact ⟨g, granted_eq_some.mpr ⟨e.2, mem_entries.mp he, hg⟩, hx⟩
  · rintro ⟨g, hg, hx⟩
    obtain ⟨node, hnode, hgr⟩ := granted_eq_some.mp hg
    refine ⟨⟨p, node⟩, List.mem_filter.mpr ⟨mem_entries.mpr hnode, ?_⟩, (h.rooted p node hnode).2⟩
    exact Node.expired_iff.mpr ⟨g, hgr, hx⟩

/-- Expiry takes out exactly the locks that have run out. -/
theorem collectExpired_spec (h : t.Wf) (now : ℕ) :
    ∃ t', t.collectExpired now = .ok t' ∧ t'.Wf ∧ t'.generation = t.generation ∧
      ∀ q, t'.granted q = (t.granted q).filter fun g => !g.expired now := by
  have hfree : ∀ p ∈ t.expiredRoots now, ∃ g, t.granted p = some g ∧ g.held = false := by
    intro p hp
    obtain ⟨g, hg, hx⟩ := h.mem_expiredRoots.mp hp
    refine ⟨g, hg, ?_⟩
    have := (Bool.and_eq_true _ _ ▸ hx).1
    simpa using this
  obtain ⟨t', hok, hwf, hgen, hgr⟩ := foldlM_remove_spec h (h.nodup_expiredRoots now) hfree
  refine ⟨t', hok, hwf, hgen, fun q => ?_⟩
  rw [hgr]
  by_cases hq : q ∈ t.expiredRoots now
  · obtain ⟨g, hg, hx⟩ := h.mem_expiredRoots.mp hq
    rw [if_pos hq, hg, Option.filter_some, hx]
    rfl
  · rw [if_neg hq]
    cases hg : t.granted q with
    | none => rfl
    | some g =>
      have hx : g.expired now = false := by
        refine Bool.eq_false_iff.mpr fun hx => hq ?_
        exact h.mem_expiredRoots.mpr ⟨g, hg, hx⟩
      rw [Option.filter_some, hx]
      rfl

theorem lookup_spec (h : t.Wf) (name : Path) (conditions : List Condition) :
    ∃ found, t.lookup name conditions = .ok found ∧ ∀ root, found = some root →
      ∃ g, t.granted root = some g ∧ g.held = false ∧ ∃ c ∈ conditions, c.token = g.token := by
  induction conditions with
  | nil => exact ⟨none, rfl, fun root hr => nomatch hr⟩
  | cons c conditions ih =>
    obtain ⟨found, hok, hfound⟩ := ih
    have hrest : ∃ found, t.lookup name conditions = .ok found ∧ ∀ root, found = some root →
        ∃ g, t.granted root = some g ∧ g.held = false ∧
          ∃ c' ∈ c :: conditions, c'.token = g.token := by
      refine ⟨found, hok, fun root hr => ?_⟩
      obtain ⟨g, hg, hheld, c', hc', he⟩ := hfound root hr
      exact ⟨g, hg, hheld, c', List.mem_cons_of_mem _ hc', he⟩
    unfold lookup
    cases htok : t.byToken.lookup c.token with
    | none => exact hrest
    | some root =>
      obtain ⟨g, hg, he⟩ := (h.tokens c.token root).mp htok
      obtain ⟨node, hnode, hgr⟩ := granted_eq_some.mp hg
      simp only [hnode]
      have hhere : node.held = false → ∀ root', some root = some root' →
          ∃ g, t.granted root' = some g ∧ g.held = false ∧
            ∃ c' ∈ c :: conditions, c'.token = g.token := by
        intro hheld root' hr
        cases hr
        refine ⟨g, hg, ?_, c, List.mem_cons_self .., he.symm⟩
        rw [(Node.grant_eq_some.mp hgr).2]
        exact hheld
      by_cases hheld : node.held = true
      · rw [if_pos hheld]
        exact hrest
      · have hheld' : node.held = false := by simpa using hheld
        rw [if_neg hheld]
        split
        · exact ⟨some root, rfl, hhere hheld'⟩
        split
        · exact hrest
        split
        · exact ⟨some root, rfl, hhere hheld'⟩
        · exact hrest

theorem lookupAll_spec (h : t.Wf) (conditions : List Condition) (names held : List Path)
    (hheld : ∀ p ∈ held, ∃ g, t.granted p = some g ∧ g.held = false ∧
      ∃ c ∈ conditions, c.token = g.token) :
    ∃ found, t.lookupAll conditions names held = .ok found ∧ ∀ roots, found = some roots →
      ∀ p ∈ roots, ∃ g, t.granted p = some g ∧ g.held = false ∧
        ∃ c ∈ conditions, c.token = g.token := by
  induction names generalizing held with
  | nil =>
    refine ⟨some held, rfl, fun roots hr => ?_⟩
    cases hr
    exact hheld
  | cons name names ih =>
    unfold lookupAll
    by_cases hname : name = []
    · rw [if_pos hname]
      exact ih held hheld
    · rw [if_neg hname]
      obtain ⟨found, hok, hfound⟩ := lookup_spec h (slashClean name) conditions
      rw [hok]
      cases found with
      | none => exact ⟨none, rfl, fun roots hr => nomatch hr⟩
      | some root =>
        refine ih _ fun p hp => ?_
        split at hp
        · exact hheld p hp
        · rcases List.mem_append.mp hp with hp | hp
          · exact hheld p hp
          · rw [List.mem_singleton.mp hp]
            exact hfound root rfl

theorem setHeld_spec (h : t.Wf) (held : Bool) (p : Path)
    (hp : held = true → (t.granted p).isSome) :
    (t.setHeld held p).Wf ∧ (t.setHeld held p).generation = t.generation ∧
      ∀ q, (t.setHeld held p).granted q =
        if q = p then (t.granted q).map fun g => { g with held } else t.granted q := by
  unfold setHeld
  cases hnode : t.byName.lookup p with
  | none =>
    refine ⟨h, rfl, fun q => ?_⟩
    by_cases hq : q = p
    · rw [if_pos hq, hq, granted, hnode]
      rfl
    · rw [if_neg hq]
  | some node =>
    have htoken : held = true → node.token ≠ [] := by
      intro hh
      obtain ⟨g, hg⟩ := Option.isSome_iff_exists.mp (hp hh)
      obtain ⟨n, hn, hgr⟩ := granted_eq_some.mp hg
      rw [hnode] at hn
      cases hn
      exact (Node.grant_eq_some.mp hgr).1
    obtain ⟨hwf, hgr⟩ := h.replace hnode (n := { node with held }) rfl rfl rfl rfl htoken
    refine ⟨hwf, rfl, fun q => (hgr q).trans ?_⟩
    by_cases hq : q = p
    · rw [if_pos hq, if_pos hq, hq, granted, hnode]
      unfold Node.grant
      by_cases ht : node.token = []
      · simp [ht]
      · simp [ht]
    · rw [if_neg hq, if_neg hq]

theorem foldl_setHeld_spec (h : t.Wf) (held : Bool) (roots : List Path)
    (hroots : held = true → ∀ p ∈ roots, (t.granted p).isSome) :
    (roots.foldl (setHeld held) t).Wf ∧ (roots.foldl (setHeld held) t).generation = t.generation ∧
      ∀ q, (roots.foldl (setHeld held) t).granted q =
        if q ∈ roots then (t.granted q).map fun g => { g with held } else t.granted q := by
  induction roots generalizing t with
  | nil => exact ⟨h, rfl, fun q => by simp⟩
  | cons p roots ih =>
    obtain ⟨hwf, hgen, hgr⟩ := setHeld_spec h held p fun hh => hroots hh p (List.mem_cons_self ..)
    obtain ⟨hwf', hgen', hgr'⟩ := ih hwf fun hh q hq => by
      rw [hgr]
      have := hroots hh q (List.mem_cons_of_mem _ hq)
      split
      · rwa [Option.isSome_map]
      · exact this
    refine ⟨hwf', hgen'.trans hgen, fun q => ?_⟩
    rw [List.foldl_cons, hgr', hgr]
    by_cases hq : q = p
    · by_cases hmem : p ∈ roots
      · simp [hq, hmem, Function.comp_def]
      · simp [hq, hmem]
    · by_cases hmem : q ∈ roots <;> simp [hq, hmem]

/-- The lock a granted creation makes. -/
def madeBy (now : ℕ) (details : LockDetails) (token : List Char) : Grant :=
  ⟨{ details with root := slashClean details.root }, token, details.duration.map (now + ·), false⟩

/-- What admits a lock: nothing live at the path, no infinite lock above it,
and no lock below an infinite one. -/
theorem of_canCreate {name : Path} (hname : Rooted name) {zeroDepth : Bool}
    (hc : t.canCreate name zeroDepth = true) :
    t.granted name = none ∧ (zeroDepth = false → name ∉ t.byName) ∧
      ∀ q g, t.granted q = some g → q ≠ name → Covers q name → g.details.zeroDepth = true := by
  obtain ⟨above, habove⟩ := head_toRoot hname
  unfold canCreate at hc
  rw [habove] at hc
  obtain ⟨hfirst, hrest⟩ := Bool.and_eq_true_iff.mp hc
  refine ⟨?_, ?_, ?_⟩
  · cases hnode : t.byName.lookup name with
    | none =>
      rw [granted, hnode]
      rfl
    | some node =>
      rw [hnode] at hfirst
      have htok : node.token = [] := by
        have := (Bool.and_eq_true_iff.mp hfirst).1
        simpa using this
      rw [granted, hnode]
      show node.grant = none
      rw [Node.grant, if_pos htok]
  · rintro rfl hmem
    obtain ⟨node, hnode⟩ := mem_byName.mp hmem
    rw [hnode] at hfirst
    exact absurd (Bool.and_eq_true_iff.mp hfirst).2 (by simp)
  · intro q g hg hne hcov
    have hq : q ∈ above := by
      have := (mem_toRoot_iff hname).mpr hcov
      rw [habove] at this
      exact (List.mem_cons.mp this).resolve_left hne
    obtain ⟨node, hnode, hgr⟩ := granted_eq_some.mp hg
    have := List.all_eq_true.mp hrest q hq
    rw [hnode] at this
    obtain ⟨htok, rfl⟩ := Node.grant_eq_some.mp hgr
    rcases Bool.or_eq_true_iff.mp this with he | hz
    · exact absurd (List.isEmpty_iff.mp he) htok
    · exact hz

section Create

variable {p : Path} {token : List Char} {details : LockDetails} {expiry : Option ℕ}

/-- The node of a lock just granted, over the node its path had. -/
def grantNode (details : LockDetails) (token : List Char) (expiry : Option ℕ) :
    Option Node → Node
  | some node => ⟨details, token, node.refCount + 1, expiry, node.held⟩
  | none => ⟨details, token, 1, expiry, false⟩

/-- A table that differs from a well-formed one by one admitted lock. -/
theorem Wf.grant (h : t.Wf) (hp : Rooted p) (hroot : details.root = p)
    (hc : t.canCreate p details.zeroDepth = true) {t' : MemLs}
    (hgen : t'.generation = t.generation + 1) (htoken : token = Text.decimal (t.generation + 1))
    (hbt : t'.byToken = t.byToken.insert token p)
    (hlook : ∀ q, t'.byName.lookup q =
      if q = p then some (grantNode details token expiry (t.byName.lookup p))
      else if Covers q p then addRef q (t.byName.lookup q) else t.byName.lookup q) :
    t'.Wf ∧ t.granted p = none ∧
      ∀ q, t'.granted q = if q = p then some ⟨details, token, expiry, false⟩ else t.granted q := by
  obtain ⟨hnone, hbelowNone, habove⟩ := of_canCreate hp hc
  have hne : token ≠ [] := by
    rw [htoken]
    exact Text.decimal_ne_nil _
  have hfresh : ∀ q g, t.granted q = some g → g.token ≠ token := by
    intro q g hg he
    obtain ⟨m, hm, hmt⟩ := h.minted q g hg
    have := Text.decimal_injective (hmt.symm.trans (he.trans htoken))
    omega
  have hunheld : ∀ node, t.byName.lookup p = some node → node.token = [] ∧ node.held = false := by
    intro node hnode
    rw [granted, hnode] at hnone
    have htok : node.token = [] := by
      by_contra hne'
      have : node.grant = none := hnone
      rw [Node.grant, if_neg hne'] at this
      cases this
    exact ⟨htok, Bool.eq_false_iff.mpr fun hh => h.held p node hnode hh htok⟩
  have hgrantNode : (grantNode details token expiry (t.byName.lookup p)).grant =
      some ⟨details, token, expiry, false⟩ := by
    cases hnode : t.byName.lookup p with
    | none => simp [grantNode, Node.grant, hne]
    | some node => simp [grantNode, Node.grant, hne, (hunheld node hnode).2]
  have hgranted : ∀ q, t'.granted q =
      if q = p then some ⟨details, token, expiry, false⟩ else t.granted q := by
    intro q
    rw [granted, hlook]
    by_cases hq : q = p
    · rw [if_pos hq, if_pos hq]
      exact hgrantNode
    · rw [if_neg hq, if_neg hq]
      by_cases hcov : Covers q p
      · rw [if_pos hcov, granted]
        cases t.byName.lookup q <;> rfl
      · rw [if_neg hcov]
        rfl
  have hpr : p ∉ t.roots := fun hm => by
    obtain ⟨g, hg⟩ := mem_roots.mp hm
    rw [hnone] at hg
    cases hg
  have hroots : t'.roots = insert p t.roots := by
    ext q
    rw [mem_roots, Finset.mem_insert, mem_roots, hgranted]
    by_cases hq : q = p <;> simp [hq]
  have hbelow : ∀ q, t'.below q = if Covers q p then t.below q + 1 else t.below q := by
    intro q
    rw [below, hroots, Finset.filter_insert, below]
    by_cases hcov : Covers q p
    · rw [if_pos hcov, if_pos hcov,
        Finset.card_insert_of_notMem fun hm => hpr (Finset.mem_filter.mp hm).1]
    · rw [if_neg hcov, if_neg hcov]
  have hcovp : Covers p p := Or.inl rfl
  have hzero : ∀ q, t.byName.lookup q = none → t.below q = 0 := by
    intro q hq
    refine Finset.card_eq_zero.mpr (Finset.eq_empty_iff_forall_notMem.mpr fun r hr => ?_)
    obtain ⟨hr, hqr⟩ := Finset.mem_filter.mp hr
    obtain ⟨node, hnode⟩ := mem_byName.mp ((h.names q).mpr ⟨r, hr, hqr⟩)
    rw [hq] at hnode
    cases hnode
  have hnodes : ∀ q node', t'.byName.lookup q = some node' → Rooted q ∧ node'.details.root = q ∧
      node'.refCount = t'.below q ∧ (node'.held = true → node'.token ≠ []) := by
    intro q node' hnode'
    rw [hlook] at hnode'
    rw [hbelow]
    by_cases hq : q = p
    · subst hq
      rw [if_pos rfl, Option.some.injEq] at hnode'
      rw [if_pos hcovp, ← hnode']
      cases hnode : t.byName.lookup q with
      | none => exact ⟨hp, hroot, by rw [hzero q hnode]; rfl, fun hh => by cases hh⟩
      | some node => exact ⟨hp, hroot, by rw [← h.counts q node hnode]; rfl, fun _ => hne⟩
    · rw [if_neg hq] at hnode'
      by_cases hcov : Covers q p
      · rw [if_pos hcov] at hnode' ⊢
        have hqr := rooted_of_mem_toRoot hp ((mem_toRoot_iff hp).mpr hcov)
        cases hnode : t.byName.lookup q with
        | none =>
          rw [hnode] at hnode'
          cases hnode'
          exact ⟨hqr, rfl, by rw [hzero q hnode], fun hh => by cases hh⟩
        | some node =>
          rw [hnode] at hnode'
          cases hnode'
          exact ⟨hqr, (h.rooted q node hnode).2, by rw [← h.counts q node hnode],
            h.held q node hnode⟩
      · rw [if_neg hcov] at hnode' ⊢
        exact ⟨(h.rooted q node' hnode').1, (h.rooted q node' hnode').2, h.counts q node' hnode',
          h.held q node' hnode'⟩
  refine ⟨⟨?_, ?_, ?_, ?_, ?_, ?_, ?_⟩, hnone, hgranted⟩
  · intro q node' hnode'
    exact ⟨(hnodes q node' hnode').1, (hnodes q node' hnode').2.1⟩
  · intro q node' hnode'
    exact (hnodes q node' hnode').2.2.1
  · intro q
    have hmem : q ∈ t'.byName ↔ Covers q p ∨ q ∈ t.byName := by
      rw [mem_byName, hlook, mem_byName]
      by_cases hq : q = p
      · simp [hq, hcovp]
      · rw [if_neg hq]
        by_cases hcov : Covers q p
        · rw [if_pos hcov]
          cases t.byName.lookup q <;> simp [addRef, hcov]
        · simp [hcov]
    rw [hmem, h.names q, hroots]
    simp
  · intro token' q
    rw [hbt]
    by_cases ht : token' = token
    · rw [ht, AList.lookup_insert]
      constructor
      · intro e
        cases e
        exact ⟨_, by rw [hgranted, if_pos rfl], rfl⟩
      · rintro ⟨g, hg, he⟩
        rw [hgranted] at hg
        by_cases hq : q = p
        · rw [hq]
        · rw [if_neg hq] at hg
          exact absurd he (hfresh q g hg)
    · rw [AList.lookup_insert_ne ht, h.tokens, hgranted]
      by_cases hq : q = p
      · rw [if_pos hq, hq, hnone]
        constructor
        · intro hsome
          obtain ⟨g, hg, -⟩ := hsome
          cases hg
        · rintro ⟨g, hg, he⟩
          cases hg
          exact absurd he.symm ht
      · rw [if_neg hq]
  · intro q r g hg hr hrq hcov
    rw [hgranted] at hg
    rw [hroots, Finset.mem_insert] at hr
    by_cases hq : q = p
    · rw [if_pos hq] at hg
      cases hg
      by_contra hz
      have hr' : r ∈ t.roots := hr.resolve_left fun e => hrq (e.trans hq.symm)
      refine hbelowNone (Bool.eq_false_iff.mpr hz) ((h.names p).mpr ⟨r, hr', hq ▸ hcov⟩)
    · rw [if_neg hq] at hg
      rcases hr with rfl | hr
      · exact habove q g hg hq hcov
      · exact h.apart q r g hg hr hrq hcov
  · intro q node' hnode'
    exact (hnodes q node' hnode').2.2.2
  · intro q g hg
    rw [hgranted] at hg
    rw [hgen]
    by_cases hq : q = p
    · rw [if_pos hq] at hg
      cases hg
      exact ⟨t.generation + 1, le_rfl, htoken⟩
    · rw [if_neg hq] at hg
      obtain ⟨m, hm, he⟩ := h.minted q g hg
      exact ⟨m, hm.trans (Nat.le_succ _), he⟩

end Create

/-- A creation answers that the path is locked, or grants a lock with a new token. -/
theorem create_spec (h : t.Wf) (now : ℕ) (details : LockDetails) :
    ∃ answer t', t.create now details = .ok (answer, t') ∧ t'.Wf ∧
      ((answer = .error .locked ∧ t'.generation = t.generation ∧
          ∀ q, t'.granted q = (t.granted q).filter fun g => !g.expired now) ∨
        ∃ token, answer = .ok token ∧ token = Text.decimal (t.generation + 1) ∧
          t'.generation = t.generation + 1 ∧
          ((t.granted (slashClean details.root)).filter fun g => !g.expired now) = none ∧
          ∀ q, t'.granted q = if q = slashClean details.root then some (madeBy now details token)
            else (t.granted q).filter fun g => !g.expired now) := by
  obtain ⟨t₁, hok, hwf, hgen, hgr⟩ := collectExpired_spec h now
  unfold create
  rw [hok]
  set p := slashClean details.root with hpdef
  have hp : Rooted p := rooted_slashClean _
  cases hc : t₁.canCreate p details.zeroDepth with
  | false =>
    refine ⟨.error .locked, t₁, ?_, hwf, Or.inl ⟨rfl, hgen, hgr⟩⟩
    rw [Except.ok_bind]
    show (if !t₁.canCreate p details.zeroDepth then _ else _) = _
    rw [hc]
    rfl
  | true =>
    obtain ⟨byName, hvisit, hresult⟩ := Table.visit_spec
      (f := fun name node => (.ok (addRef name node) : Except LockPanic (Option Node)))
      (g := fun q => addRef q (t₁.byName.lookup q)) (nodup_toRoot hp) (t := t₁.byName)
      fun q _ => rfl
    have hnode : byName.lookup p = addRef p (t₁.byName.lookup p) := by
      rw [hresult, if_pos (self_mem_toRoot hp)]
    set token := Text.decimal (t₁.generation + 1) with htoken
    have hsome : ∃ node, addRef p (t₁.byName.lookup p) = some node ∧
        ({ node with
            token, expiry := details.duration.map (now + ·),
            details := { details with root := p } } : Node) =
          grantNode { details with root := p } token (details.duration.map (now + ·))
            (t₁.byName.lookup p) := by
      cases t₁.byName.lookup p with
      | none => exact ⟨_, rfl, rfl⟩
      | some node => exact ⟨_, rfl, rfl⟩
    obtain ⟨node, hadd, hgrant⟩ := hsome
    rw [hadd] at hnode
    let t₂ : MemLs := ⟨byName.insert p (grantNode { details with root := p } token
      (details.duration.map (now + ·)) (t₁.byName.lookup p)), t₁.byToken.insert token p,
      t₁.generation + 1⟩
    have hlook : ∀ q, t₂.byName.lookup q =
        if q = p then some (grantNode { details with root := p } token
          (details.duration.map (now + ·)) (t₁.byName.lookup p))
        else if Covers q p then addRef q (t₁.byName.lookup q) else t₁.byName.lookup q := by
      intro q
      by_cases hq : q = p
      · rw [if_pos hq, hq, AList.lookup_insert]
      · rw [if_neg hq, AList.lookup_insert_ne hq, hresult]
        by_cases hcov : Covers q p
        · rw [if_pos ((mem_toRoot_iff hp).mpr hcov), if_pos hcov]
        · rw [if_neg fun hm => hcov ((mem_toRoot_iff hp).mp hm), if_neg hcov]
    obtain ⟨hwf₂, hnone, hgr₂⟩ := hwf.grant hp
      (show ({ details with root := p } : LockDetails).root = p from rfl) hc
      (show t₂.generation = t₁.generation + 1 from rfl) htoken rfl hlook
    refine ⟨.ok token, t₂, ?_, hwf₂, Or.inr ⟨token, rfl, ?_, ?_, ?_, fun q => ?_⟩⟩
    · show (if !t₁.canCreate p details.zeroDepth then _ else _) = _
      rw [hc]
      show (Table.visit (fun name node => (.ok (addRef name node) : Except LockPanic (Option Node)))
        t₁.byName (toRoot p)).bind _ = _
      rw [hvisit]
      simp only [Except.bind, hpdef] at hnode ⊢
      rw [hnode]
      exact congrArg (fun node : Node => (Except.ok (Except.ok token, ⟨byName.insert p node,
        t₁.byToken.insert token p, t₁.generation + 1⟩) :
          Except LockPanic (Except LockError (List Char) × MemLs))) hgrant
    · rw [htoken, hgen]
    · show t₁.generation + 1 = _
      rw [hgen]
    · rw [← hgr]
      exact hnone
    · rw [hgr₂, hgr]
      rfl

theorem refresh_spec (h : t.Wf) (now : ℕ) (token : List Char) (duration : Option ℕ) :
    ∃ answer t', t.refresh now token duration = .ok (answer, t') ∧ t'.Wf ∧
      t'.generation = t.generation ∧
      ((∀ q, t'.granted q = (t.granted q).filter fun g => !g.expired now) ∧
          (∀ q g, t'.granted q = some g → g.token = token → answer = .error .locked) ∨
        ∃ p g, t.granted p = some g ∧ g.token = token ∧ g.held = false ∧
          answer = .ok { g.details with duration } ∧
          ∀ q, t'.granted q = if q = p then some { g with
              details := { g.details with duration }
              expiry := duration.map (now + ·) }
            else (t.granted q).filter fun g => !g.expired now) := by
  obtain ⟨t₁, hok, hwf, hgen, hgr⟩ := collectExpired_spec h now
  unfold refresh
  rw [hok]
  cases htok : t₁.byToken.lookup token with
  | none =>
    refine ⟨.error .noSuchLock, t₁, ?_, hwf, hgen, Or.inl ⟨hgr, fun q g hg he => ?_⟩⟩
    · simp only [Except.ok_bind, htok]
      rfl
    · rw [(hwf.tokens token q).mpr ⟨g, hg, he⟩] at htok
      cases htok
  | some p =>
    obtain ⟨g, hg, he⟩ := (hwf.tokens token p).mp htok
    obtain ⟨node, hnode, hgrant⟩ := granted_eq_some.mp hg
    obtain ⟨hne, rfl⟩ := Node.grant_eq_some.mp hgrant
    cases hheld : node.held with
    | true =>
      refine ⟨.error .locked, t₁, ?_, hwf, hgen, Or.inl ⟨hgr, fun q g hg he => rfl⟩⟩
      simp only [Except.ok_bind, htok]
      simp only [hnode, hheld]
      rfl
    | false =>
      obtain ⟨hwf₂, hgr₂⟩ := hwf.replace hnode
        (n := { node with
          details := { node.details with duration }
          expiry := duration.map (now + ·) }) rfl rfl rfl rfl fun _ => hne
      have hold : t.granted p = some ⟨node.details, node.token, node.expiry, node.held⟩ := by
        have := (hgr p).symm.trans hg
        exact (Option.filter_eq_some_iff.mp this).1
      refine ⟨.ok { node.details with duration }, _, ?_, hwf₂, hgen,
        Or.inr ⟨p, _, hold, he, hheld, rfl, fun q => ?_⟩⟩
      · simp only [Except.ok_bind, htok]
        simp only [hnode, hheld]
        rfl
      · rw [hgr₂, hgr]
        by_cases hq : q = p
        · rw [if_pos hq, if_pos hq]
          exact Node.grant_eq_some.mpr ⟨hne, rfl⟩
        · rw [if_neg hq, if_neg hq]

/-- What a call to unlock a token leaves of a lock. -/
def Grant.outlives (now : ℕ) (token : List Char) (g : Grant) : Bool :=
  !g.expired now && (g.held || g.token ≠ token)

theorem unlock_spec (h : t.Wf) (now : ℕ) (token : List Char) :
    ∃ answer t', t.unlock now token = .ok (answer, t') ∧ t'.Wf ∧ t'.generation = t.generation ∧
      (∀ q g, t'.granted q = some g → g.token = token → answer = .error .locked) ∧
      ∀ q, t'.granted q = (t.granted q).filter (Grant.outlives now token) := by
  obtain ⟨t₁, hok, hwf, hgen, hgr⟩ := collectExpired_spec h now
  have hfilter : ∀ q, (t₁.granted q).filter (fun g => g.held || g.token ≠ token) =
      (t.granted q).filter (Grant.outlives now token) := by
    intro q
    rw [hgr, Option.filter_filter]
    rfl
  have hkept : ∀ q, (∀ g, t₁.granted q = some g → (g.held || g.token ≠ token) = true) →
      t₁.granted q = (t.granted q).filter (Grant.outlives now token) := by
    intro q hq
    rw [← hfilter]
    cases hg : t₁.granted q with
    | none => rfl
    | some g => rw [Option.filter_some, if_pos (hq g hg)]
  unfold unlock
  rw [hok]
  cases htok : t₁.byToken.lookup token with
  | none =>
    have hother : ∀ q g, t₁.granted q = some g → g.token ≠ token := by
      intro q g hg he
      rw [(hwf.tokens token q).mpr ⟨g, hg, he⟩] at htok
      cases htok
    refine ⟨.error .noSuchLock, t₁, ?_, hwf, hgen, fun q g hg he => absurd he (hother q g hg),
      fun q => hkept q fun g hg => ?_⟩
    · simp only [Except.ok_bind, htok]
      rfl
    · simpa using Or.inr (hother q g hg)
  | some p =>
    obtain ⟨g, hg, he⟩ := (hwf.tokens token p).mp htok
    obtain ⟨node, hnode, hgrant⟩ := granted_eq_some.mp hg
    have hheldEq : g.held = node.held := by rw [(Node.grant_eq_some.mp hgrant).2]
    have hother : ∀ q g', t₁.granted q = some g' → q ≠ p → g'.token ≠ token := by
      intro q g' hg' hq ht
      exact hq (hwf.token_inj hg' hg (ht.trans he.symm))
    cases hheld : node.held with
    | true =>
      refine ⟨.error .locked, t₁, ?_, hwf, hgen, fun q g hg he => rfl, fun q => hkept q fun g' hg' => ?_⟩
      · simp only [Except.ok_bind, htok]
        simp only [hnode, Option.any_some, hheld]
        rfl
      · by_cases hq : q = p
        · rw [hq, hg] at hg'
          cases hg'
          simp [hheldEq, hheld]
        · simpa using Or.inr (hother q g' hg' hq)
    | false =>
      obtain ⟨t₂, hok₂, hwf₂, hgen₂, hgr₂⟩ := remove_spec hwf hg (hheldEq.trans hheld)
      refine ⟨.ok (), t₂, ?_, hwf₂, hgen₂.trans hgen, fun q g' hg' ht => ?_, fun q => ?_⟩
      · simp only [Except.ok_bind, htok]
        simp only [hnode, Option.any_some, hheld]
        show (t₁.remove p).bind _ = _
        rw [hok₂]
        rfl
      · rw [hgr₂] at hg'
        by_cases hq : q = p
        · rw [if_pos hq] at hg'
          cases hg'
        · rw [if_neg hq] at hg'
          exact absurd ht (hother q g' hg' hq)
      · rw [hgr₂]
        by_cases hq : q = p
        · rw [if_pos hq, ← hfilter, hq, hg, Option.filter_some, if_neg (by simp [hheldEq, hheld, he])]
        · rw [if_neg hq]
          exact hkept q fun g' hg' => by simpa using Or.inr (hother q g' hg' hq)

theorem confirm_spec (h : t.Wf) (now : ℕ) (name0 name1 : Path) (conditions : List Condition) :
    ∃ answer t', t.confirm now name0 name1 conditions = .ok (answer, t') ∧ t'.Wf ∧
      t'.generation = t.generation ∧
      ((∃ e, answer = .error e) ∧ (∀ q, t'.granted q = (t.granted q).filter fun g => !g.expired now) ∨
        ∃ roots, answer = .ok roots ∧
          (∀ p ∈ roots, ∃ g, t.granted p = some g ∧ g.expired now = false ∧ g.held = false ∧
            ∃ c ∈ conditions, c.token = g.token) ∧
          ∀ q, t'.granted q =
            if q ∈ roots then (t.granted q).map fun g => { g with held := true }
            else (t.granted q).filter fun g => !g.expired now) := by
  obtain ⟨t₁, hok, hwf, hgen, hgr⟩ := collectExpired_spec h now
  obtain ⟨found, hall, hfound⟩ := lookupAll_spec hwf conditions [name0, name1] []
    fun p hp => absurd hp (by simp)
  unfold confirm
  rw [hok]
  cases found with
  | none =>
    refine ⟨.error .confirmationFailed, t₁, ?_, hwf, hgen, Or.inl ⟨⟨_, rfl⟩, hgr⟩⟩
    show (t₁.lookupAll conditions [name0, name1] []).bind _ = _
    rw [hall]
    rfl
  | some roots =>
    have hlive : ∀ p ∈ roots, (t₁.granted p).isSome := by
      intro p hp
      obtain ⟨g, hg, -⟩ := hfound roots rfl p hp
      rw [hg]
      rfl
    obtain ⟨hwf₂, hgen₂, hgr₂⟩ := foldl_setHeld_spec hwf true roots fun _ => hlive
    refine ⟨.ok roots, roots.foldl (setHeld true) t₁, ?_, hwf₂, hgen₂.trans hgen,
      Or.inr ⟨roots, rfl, ?_, fun q => ?_⟩⟩
    · show (t₁.lookupAll conditions [name0, name1] []).bind _ = _
      rw [hall]
      rfl
    · intro p hp
      obtain ⟨g, hg, hheld, hc⟩ := hfound roots rfl p hp
      rw [hgr] at hg
      obtain ⟨hold, hx⟩ := Option.filter_eq_some_iff.mp hg
      exact ⟨g, hold, by simpa using hx, hheld, hc⟩
    · rw [hgr₂]
      by_cases hq : q ∈ roots
      · rw [if_pos hq, if_pos hq]
        obtain ⟨g, hg⟩ := Option.isSome_iff_exists.mp (hlive q hq)
        have hold := (hgr q).symm.trans hg
        rw [hg, (Option.filter_eq_some_iff.mp hold).1]
      · rw [if_neg hq, if_neg hq, hgr]

theorem release_spec (h : t.Wf) (roots : List Path) :
    (t.release roots).Wf ∧ (t.release roots).generation = t.generation ∧
      ∀ q, (t.release roots).granted q =
        if q ∈ roots then (t.granted q).map fun g => { g with held := false } else t.granted q :=
  foldl_setHeld_spec h false roots fun hh => nomatch hh

end MemLs

namespace LockCall

/-- Whether the call lets go of a lock held at `p`. -/
def releases : LockCall → Path → Prop
  | release roots, p => p ∈ roots
  | _, _ => False

/-- Whether the call asks to refresh or to unlock the lock with this token. -/
def asksFor : LockCall → List Char → Prop
  | refresh _ token' _, token => token' = token
  | unlock _ token', token => token' = token
  | _, _ => False

theorem kept_of_held {now : ℕ} {g : Grant} (hg : g.held = true) :
    (some g).filter (fun g => !g.expired now) = some g := by
  rw [Option.filter_some, if_pos (by simp [Grant.expired, hg])]

/-- A call succeeds on every well-formed table, keeps it so, and leaves a held lock alone. -/
theorem run_spec (call : LockCall) {t : MemLs} (h : t.Wf) :
    ∃ e t', call.run t = .ok (e, t') ∧ t'.Wf ∧
      ∀ p g, t.granted p = some g → g.held = true → ¬call.releases p →
        t'.granted p = some g ∧ (call.asksFor g.token → e = some .locked) := by
  cases call with
  | create now details =>
    obtain ⟨answer, t', hok, hwf, hcase⟩ := MemLs.create_spec h now details
    refine ⟨errorOf answer, t', by rw [run, hok]; rfl, hwf, fun p g hg hheld _ => ⟨?_, False.elim⟩⟩
    have hkeep : (t.granted p).filter (fun g => !g.expired now) = some g := by
      rw [hg, kept_of_held hheld]
    rcases hcase with ⟨-, -, hgr⟩ | ⟨token, -, -, -, hnone, hgr⟩
    · rw [hgr, hkeep]
    · rw [hgr, if_neg fun e => ?_, hkeep]
      rw [← e, hkeep] at hnone
      cases hnone
  | confirm now name0 name1 conditions =>
    obtain ⟨answer, t', hok, hwf, -, hcase⟩ := MemLs.confirm_spec h now name0 name1 conditions
    refine ⟨errorOf answer, t', by rw [run, hok]; rfl, hwf, fun p g hg hheld _ => ⟨?_, False.elim⟩⟩
    rcases hcase with ⟨-, hgr⟩ | ⟨roots, -, hroots, hgr⟩
    · rw [hgr, hg, kept_of_held hheld]
    · rw [hgr, if_neg fun hp => ?_, hg, kept_of_held hheld]
      obtain ⟨g', hg', -, hheld', -⟩ := hroots p hp
      rw [hg] at hg'
      cases hg'
      rw [hheld] at hheld'
      cases hheld'
  | release roots =>
    obtain ⟨hwf, -, hgr⟩ := MemLs.release_spec h roots
    refine ⟨none, _, rfl, hwf, fun p g hg hheld hp => ⟨?_, False.elim⟩⟩
    have hp' : p ∉ roots := hp
    rw [hgr, if_neg hp', hg]
  | refresh now token duration =>
    obtain ⟨answer, t', hok, hwf, -, hcase⟩ := MemLs.refresh_spec h now token duration
    refine ⟨errorOf answer, t', by rw [run, hok]; rfl, hwf, fun p g hg hheld _ => ?_⟩
    rcases hcase with ⟨hgr, hans⟩ | ⟨q, g', hg', htok, hheld', -, hgr⟩
    · have hkeep : t'.granted p = some g := by rw [hgr, hg, kept_of_held hheld]
      refine ⟨hkeep, fun ha => ?_⟩
      rw [hans p g hkeep ha.symm]
      rfl
    · have hpq : p ≠ q := by
        rintro rfl
        rw [hg] at hg'
        cases hg'
        rw [hheld] at hheld'
        cases hheld'
      refine ⟨by rw [hgr, if_neg hpq, hg, kept_of_held hheld], fun ha => ?_⟩
      exact absurd (h.token_inj hg hg' (ha.symm.trans htok.symm)) hpq
  | unlock now token =>
    obtain ⟨answer, t', hok, hwf, -, hans, hgr⟩ := MemLs.unlock_spec h now token
    refine ⟨errorOf answer, t', by rw [run, hok]; rfl, hwf, fun p g hg hheld _ => ?_⟩
    have hkeep : t'.granted p = some g := by
      rw [hgr, hg, Option.filter_some, if_pos (by simp [MemLs.Grant.outlives, Grant.expired, hheld])]
    refine ⟨hkeep, fun ha => ?_⟩
    rw [hans p g hkeep ha.symm]
    rfl

theorem runAll_spec (calls : List LockCall) {t : MemLs} (h : t.Wf) :
    ∃ t', runAll calls t = .ok t' ∧ t'.Wf := by
  induction calls generalizing t with
  | nil => exact ⟨t, rfl, h⟩
  | cons call calls ih =>
    obtain ⟨e, t₁, hok, hwf, -⟩ := run_spec call h
    obtain ⟨t', hok', hwf'⟩ := ih hwf
    refine ⟨t', ?_, hwf'⟩
    rw [runAll, List.foldlM_cons, hok]
    exact hok'

/-- Over any calls from a new table: none fails, the table stays well formed,
and a held lock stays as it is until it is released. -/
theorem runAll_wf (generation : ℕ) (calls : List LockCall) :
    ∃ t, runAll calls (MemLs.new generation) = .ok t ∧ t.Wf ∧
      ∀ (call : LockCall) p g, t.granted p = some g → g.held = true → ¬call.releases p →
        ∃ e t', call.run t = .ok (e, t') ∧ t'.granted p = some g ∧
          (call.asksFor g.token → e = some .locked) := by
  obtain ⟨t, hok, hwf⟩ := runAll_spec calls (MemLs.wf_new generation)
  refine ⟨t, hok, hwf, fun call p g hg hheld hr => ?_⟩
  obtain ⟨e, t', hok', -, hkeep⟩ := run_spec call hwf
  exact ⟨e, t', hok', hkeep p g hg hheld hr⟩

end LockCall

end Rustorr
