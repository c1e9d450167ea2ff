import Rustorr.Search.EditRows
import Mathlib.Data.List.Sort

/-! The token index lists, for each token, the records whose titles have it, in order and once. What
a search finds through it is what a walk over all records would. -/

namespace Rustorr.Rutor

variable {u : Letters} {index : Index} {torrents : List TorrentDetails} {query token : List Char}

/-! ### The lists of the index -/

/-- The ids of the records that `p` holds of, in order. -/
def idsOf (p : TorrentDetails → Bool) (torrents : List TorrentDetails) : List ℕ :=
  (torrents.zipIdx.filter fun entry => p entry.1).map Prod.snd

/-- The ids of the records whose titles have the token. -/
def postings (u : Letters) (torrents : List TorrentDetails) (token : List Char) : List ℕ :=
  idsOf (fun torrent => token ∈ analyze u torrent.title) torrents

/-- The list is in the table, but not an empty one. -/
def Lists (index : Index) (ids : List Char → List ℕ) : Prop :=
  ∀ token, index.lookup token = if ids token = [] then none else some (ids token)

theorem lookup_addToken (id : ℕ) (index : Index) (token q : List Char) :
    (addToken id index token).lookup q =
      if q = token then
        some (if ((index.lookup token).getD []).getLast? = some id then (index.lookup token).getD []
          else (index.lookup token).getD [] ++ [id])
      else index.lookup q := by
  unfold addToken
  rw [Table.lookup_put]

/-- What the index lists while the tokens of a title are added. -/
def withTokens (ids : List Char → List ℕ) (id : ℕ) (tokens : List (List Char)) (token : List Char) :
    List ℕ :=
  if token ∈ tokens then ids token ++ [id] else ids token

theorem withTokens_ne_nil {ids : List Char → List ℕ} {id : ℕ} {tokens : List (List Char)}
    (h : token ∈ tokens) : withTokens ids id tokens token ≠ [] := by
  unfold withTokens
  rw [if_pos h]
  exact List.append_ne_nil_of_right_ne_nil _ (List.cons_ne_nil _ _)

theorem lists_addToken {ids : List Char → List ℕ} {id : ℕ} {done : List (List Char)}
    (hlt : ∀ token, ∀ i ∈ ids token, i < id) (h : Lists index (withTokens ids id done))
    (token : List Char) :
    Lists (addToken id index token) (withTokens ids id (done ++ [token])) := by
  intro q
  rw [lookup_addToken]
  by_cases hq : q = token
  · rw [if_pos hq, hq]
    have hmem : token ∈ done ++ [token] := List.mem_append_right _ List.mem_cons_self
    rw [if_neg (withTokens_ne_nil hmem), h token]
    unfold withTokens
    rw [if_pos hmem]
    by_cases hdone : token ∈ done
    · -- the token was in the title before
      simp [hdone]
    · have hlast : (ids token).getLast? ≠ some id := by
        intro hlast
        exact lt_irrefl id (hlt token id (List.mem_of_getLast? hlast))
      have hget : (if ids token = [] then none else some (ids token)).getD [] = ids token := by
        split
        · next hnil => exact hnil.symm
        · rfl
      rw [if_neg hdone, hget, if_neg hlast]
  · have hiff : q ∈ done ++ [token] ↔ q ∈ done := by simp [hq]
    have hsame : withTokens ids id (done ++ [token]) q = withTokens ids id done q := by
      unfold withTokens
      simp only [hiff]
    rw [if_neg hq, h q, hsame]

theorem lists_foldl_addToken {ids : List Char → List ℕ} {id : ℕ}
    (hlt : ∀ token, ∀ i ∈ ids token, i < id) (tokens : List (List Char)) :
    ∀ (done : List (List Char)) (index : Index), Lists index (withTokens ids id done) →
      Lists (tokens.foldl (addToken id) index) (withTokens ids id (done ++ tokens)) := by
  induction tokens with
  | nil =>
    intro done index h
    rw [List.append_nil]
    exact h
  | cons token tokens ih =>
    intro done index h
    have hnext := ih (done ++ [token]) _ (lists_addToken hlt h token)
    rwa [List.append_assoc, List.singleton_append] at hnext

theorem mem_idsOf {p : TorrentDetails → Bool} {i : ℕ} :
    i ∈ idsOf p torrents ↔ ∃ torrent, torrents[i]? = some torrent ∧ p torrent = true := by
  unfold idsOf
  simp only [List.mem_map, List.mem_filter]
  constructor
  · rintro ⟨⟨torrent, j⟩, ⟨hmem, hp⟩, rfl⟩
    exact ⟨torrent, List.mem_zipIdx_iff_getElem?.mp hmem, hp⟩
  · rintro ⟨torrent, hget, hp⟩
    exact ⟨(torrent, i), ⟨List.mem_zipIdx_iff_getElem?.mpr hget, hp⟩, rfl⟩

theorem ordered_idsOf (p : TorrentDetails → Bool) (torrents : List TorrentDetails) :
    (idsOf p torrents).Pairwise (· < ·) := by
  have hall : (torrents.zipIdx.map Prod.snd).Pairwise (· < ·) := by
    rw [List.zipIdx_map_snd]
    exact List.pairwise_lt_range'
  exact hall.sublist ((List.filter_sublist).map _)

theorem lt_of_mem_postings {i : ℕ} (h : i ∈ postings u torrents token) : i < torrents.length := by
  obtain ⟨torrent, hget, -⟩ := mem_idsOf.mp h
  exact (List.getElem?_eq_some_iff.mp hget).1

theorem postings_append (torrents : List TorrentDetails) (torrent : TorrentDetails) :
    postings u (torrents ++ [torrent]) =
      withTokens (postings u torrents) torrents.length (analyze u torrent.title) := by
  funext token
  unfold withTokens postings idsOf
  rw [List.zipIdx_append, Nat.zero_add, List.filter_append, List.map_append, List.zipIdx_singleton]
  by_cases h : token ∈ analyze u torrent.title
  · simp [h]
  · simp [h]

theorem lists_buildIndex (u : Letters) (torrents : List TorrentDetails) :
    Lists (buildIndex u torrents) (postings u torrents) := by
  induction torrents using List.reverseRecOn with
  | nil => exact fun token => rfl
  | append_singleton torrents torrent ih =>
    have hbuild : buildIndex u (torrents ++ [torrent]) =
        (analyze u torrent.title).foldl (addToken torrents.length) (buildIndex u torrents) := by
      unfold buildIndex
      rw [List.zipIdx_append, Nat.zero_add, List.foldl_append]
      rfl
    rw [hbuild, postings_append]
    apply lists_foldl_addToken (fun token i hi => lt_of_mem_postings hi) _ []
    exact ih

/-! ### The intersection of ordered lists -/

theorem intersection_eq_filter {left right : List ℕ} (hleft : left.Pairwise (· < ·))
    (hright : right.Pairwise (· < ·)) : intersection left right = left.filter (· ∈ right) := by
  induction left, right using intersection.induct with
  | case1 i left j right hlt ih =>
    obtain ⟨hall, hrest⟩ := List.pairwise_cons.mp hleft
    -- everything on the right is greater than `i`
    have hnot : i ∉ j :: right := by
      intro hmem
      rcases List.mem_cons.mp hmem with rfl | hmem
      · exact lt_irrefl _ hlt
      · exact lt_asymm hlt ((List.pairwise_cons.mp hright).1 i hmem)
    rw [intersection, if_pos hlt, ih hrest hright, List.filter_cons_of_neg (by simpa using hnot)]
  | case2 i left j right hnlt hlt ih =>
    obtain ⟨hall, hrest⟩ := List.pairwise_cons.mp hright
    rw [intersection, if_neg hnlt, if_pos hlt, ih hleft hrest]
    apply List.filter_congr
    intro k hk
    have hne : k ≠ j := by
      rcases List.mem_cons.mp hk with rfl | hk
      · exact hlt.ne'
      · exact (hlt.trans ((List.pairwise_cons.mp hleft).1 k hk)).ne'
    simp [hne]
  | case3 i left j right hnlt hnlt' ih =>
    obtain rfl : i = j := le_antisymm (not_lt.mp hnlt') (not_lt.mp hnlt)
    obtain ⟨hall, hrest⟩ := List.pairwise_cons.mp hleft
    rw [intersection, if_neg hnlt, if_neg hnlt', ih hrest (List.pairwise_cons.mp hright).2,
      List.filter_cons_of_pos (by simp)]
    congr 1
    apply List.filter_congr
    intro k hk
    have hne : k ≠ i := (hall k hk).ne'
    simp [hne]
  | case4 left right h =>
    cases left with
    | nil =>
      rw [intersection]
      rfl
      exact h
    | cons i left =>
      cases right with
      | nil =>
        rw [intersection]
        · simp
        · exact h
      | cons j right => exact absurd rfl (h i left j right rfl)

/-! ### What is found -/

/-- A record is asked for: its title has every token of the query, and there is one. -/
def Matches (u : Letters) (query : List Char) (torrent : TorrentDetails) : Prop :=
  analyze u query ≠ [] ∧ ∀ token ∈ analyze u query, token ∈ analyze u torrent.title

instance (u : Letters) (query : List Char) : DecidablePred (Matches u query) :=
  fun _ => inferInstanceAs (Decidable (_ ∧ _))

/-- Narrowing by the tokens leaves the ids that are listed for all of them. -/
theorem foldlM_narrow {ids : List Char → List ℕ} (h : Lists index ids)
    (hordered : ∀ token, (ids token).Pairwise (· < ·)) (tokens : List (List Char)) :
    ∀ current : List ℕ, current.Pairwise (· < ·) →
      ((tokens.foldlM (narrow index) (some current)).getD none).getD [] =
        current.filter fun i => ∀ token ∈ tokens, i ∈ ids token := by
  induction tokens with
  | nil =>
    intro current _
    simp
  | cons token tokens ih =>
    intro current hcurrent
    have hcommon := intersection_eq_filter hcurrent (hordered token)
    rw [List.foldlM_cons]
    unfold narrow
    rw [h token]
    by_cases hnil : ids token = []
    · -- one token without a record, and there is no record at all
      rw [if_pos hnil]
      simp [hnil]
    · rw [if_neg hnil]
      have hnext := ih (intersection current (ids token)) (by
        rw [hcommon]
        exact hcurrent.sublist List.filter_sublist)
      refine hnext.trans ?_
      rw [hcommon, List.filter_filter]
      apply List.filter_congr
      intro i _
      simp [Bool.and_comm]

theorem searchIndex_spec (h : Lists index (postings u torrents)) :
    (searchIndex u index query).Pairwise (· < ·) ∧
      ∀ i, i ∈ searchIndex u index query ↔
        analyze u query ≠ [] ∧ ∀ token ∈ analyze u query, i ∈ postings u torrents token := by
  have hresult : searchIndex u index query =
      (((analyze u query).foldlM (narrow index) none).getD none).getD [] := by
    unfold searchIndex
    cases (analyze u query).foldlM (narrow index) none with
    | none => rfl
    | some result => rfl
  have hordered : ∀ token, (postings u torrents token).Pairwise (· < ·) := fun _ => ordered_idsOf _ _
  rw [hresult]
  cases analyze u query with
  | nil => exact ⟨List.Pairwise.nil, fun i => by simp⟩
  | cons token tokens =>
    -- the first token's list is taken as it is
    have hfirst : (((token :: tokens).foldlM (narrow index) none).getD none).getD [] =
        (postings u torrents token).filter fun i => ∀ token ∈ tokens, i ∈ postings u torrents token := by
      rw [List.foldlM_cons, narrow, h token]
      by_cases hnil : postings u torrents token = []
      · rw [if_pos hnil, hnil]
        rfl
      · rw [if_neg hnil]
        exact foldlM_narrow h hordered tokens _ (hordered token)
    rw [hfirst]
    refine ⟨(hordered token).sublist List.filter_sublist, fun i => ?_⟩
    simp

/-- What is found through the index is what a walk over the records finds. -/
theorem searchIndex_eq (u : Letters) (torrents : List TorrentDetails) (query : List Char) :
    searchIndex u (buildIndex u torrents) query = idsOf (fun torrent => Matches u query torrent) torrents := by
  obtain ⟨hordered, hmem⟩ := @searchIndex_spec u _ torrents query (lists_buildIndex u torrents)
  apply List.Perm.eq_of_pairwise (fun a b _ _ hab hba => absurd hab (lt_asymm hba))
    hordered (ordered_idsOf _ _)
  rw [List.perm_ext_iff_of_nodup (hordered.imp Nat.ne_of_lt) ((ordered_idsOf _ _).imp Nat.ne_of_lt)]
  intro i
  rw [hmem, mem_idsOf]
  unfold postings
  simp only [mem_idsOf, decide_eq_true_eq]
  constructor
  · rintro ⟨hne, hall⟩
    obtain ⟨token, htoken⟩ := List.exists_mem_of_ne_nil _ hne
    obtain ⟨torrent, hget, -⟩ := hall token htoken
    refine ⟨torrent, hget, hne, fun token htoken => ?_⟩
    obtain ⟨torrent', hget', hlisted⟩ := hall token htoken
    rw [hget, Option.some_inj] at hget'
    rwa [hget']
  · rintro ⟨torrent, hget, hne, hall⟩
    exact ⟨hne, fun token htoken => ⟨torrent, hget, hall token htoken⟩⟩

end Rustorr.Rutor
