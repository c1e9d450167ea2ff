import Mathlib.Data.List.AList

/-! A keyed table edited one entry after another: each edit reads the entry at
its key, if there is one, and answers what is to be there, or fails. -/

namespace Table

universe u w

variable {κ ν : Type u} {ε : Type w} [DecidableEq κ]

/-- The entry at `k` becomes `v`; `none` takes it out. -/
def put (t : AList fun _ : κ => ν) (k : κ) : Option ν → AList fun _ : κ => ν
  | some v => t.insert k v
  | none => t.erase k

theorem lookup_put (t : AList fun _ : κ => ν) (k : κ) (v : Option ν) (q : κ) :
    (put t k v).lookup q = if q = k then v else t.lookup q := by
  unfold put
  cases v with
  | some v =>
    by_cases h : q = k
    · rw [if_pos h, h, AList.lookup_insert]
    · rw [if_neg h, AList.lookup_insert_ne h]
  | none =>
    by_cases h : q = k
    · rw [if_pos h, h, AList.lookup_erase]
    · rw [if_neg h, AList.lookup_erase_ne h]

/-- Edits the entries at the keys in turn. -/
def visit (f : κ → Option ν → Except ε (Option ν)) (t : AList fun _ : κ => ν) (keys : List κ) :
    Except ε (AList fun _ : κ => ν) :=
  keys.foldlM (fun t k => do return put t k (← f k (t.lookup k))) t

theorem visit_nil (f : κ → Option ν → Except ε (Option ν)) (t : AList fun _ : κ => ν) :
    visit f t [] = .ok t := rfl

theorem visit_cons (f : κ → Option ν → Except ε (Option ν)) (t : AList fun _ : κ => ν) (k : κ)
    (keys : List κ) {v : Option ν} (h : f k (t.lookup k) = .ok v) :
    visit f t (k :: keys) = visit f (put t k v) keys := by
  unfold visit
  rw [List.foldlM_cons, h]
  rfl

/-- Edits at different keys do not see each other. -/
theorem visit_spec {f : κ → Option ν → Except ε (Option ν)} {g : κ → Option ν} {keys : List κ}
    {t : AList fun _ : κ => ν} (hn : keys.Nodup)
    (hf : ∀ k ∈ keys, f k (t.lookup k) = .ok (g k)) :
    ∃ t', visit f t keys = .ok t' ∧
      ∀ q, t'.lookup q = if q ∈ keys then g q else t.lookup q := by
  induction keys generalizing t with
  | nil => exact ⟨t, rfl, fun q => by simp⟩
  | cons k keys ih =>
    obtain ⟨hk, hn⟩ := List.nodup_cons.mp hn
    have hother : ∀ q ∈ keys, (put t k (g k)).lookup q = t.lookup q := by
      intro q hq
      have hne : q ≠ k := fun e => hk (e ▸ hq)
      rw [lookup_put, if_neg hne]
    obtain ⟨t', ht', hlook⟩ := ih (t := put t k (g k)) hn fun q hq => by
      rw [hother q hq]
      exact hf q (List.mem_cons_of_mem _ hq)
    refine ⟨t', ?_, fun q => ?_⟩
    · rw [visit_cons f t k keys (hf k (List.mem_cons_self ..)), ht']
    · rw [hlook q, lookup_put]
      by_cases hq : q = k
      · simp [hq, hk]
      · simp [hq]

end Table
