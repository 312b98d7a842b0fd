import LegalLens.Retrieval.Tools

/-!
# The limit of a search

`search_similar_clauses` passes `top_k` on as the model sends it, and the local store cuts
its ranking with it. A negative bound cuts from the end of the ranking, so it returns more,
not fewer, of the stored entries. Whatever the bound, a result is the row of a stored id
with its score, and the order is that of the ranking.
-/

namespace LegalLens.Retrieval

open Ingestion Ranking

variable {α β γ τ ν : Type*}

section Results

variable (hits : List (QueryHit β ν)) (rows : List SelectedClause)

theorem length_searchSimilarClauses :
    (searchSimilarClauses hits rows).length =
      (hits.filter fun hit => ∃ row ∈ rows, row.clauseId = hit.id).length := by
  have h := congrArg List.length (map_searchSimilarClauses hits rows)
  rwa [List.length_map, List.length_map] at h

theorem sublist_searchSimilarClauses :
    ((searchSimilarClauses hits rows).map fun result =>
      (result.clause.clauseId, result.score)).Sublist
        (hits.map fun hit => (hit.id, hit.score)) := by
  rw [map_searchSimilarClauses]
  exact List.filter_sublist.map _

variable {hits rows}

theorem mem_searchSimilarClauses {result : SearchResult β}
    (h : result ∈ searchSimilarClauses hits rows) :
    ∃ hit ∈ hits, result.clause ∈ rows ∧ result.clause.clauseId = hit.id ∧
      result.score = hit.score := by
  unfold searchSimilarClauses at h
  split_ifs at h with hnil
  · cases h
  · obtain ⟨hit, hhit, hresult⟩ := List.mem_filterMap.mp h
    obtain ⟨row, hrow, rfl⟩ := Option.map_eq_some_iff.mp hresult
    obtain ⟨hmem, hkey⟩ := Dict.mem_of_get?_byKey hrow
    exact ⟨hit, hhit, hmem, hkey, rfl⟩

theorem length_le_zero_iff {s : Stores γ τ} (hrows : Selects s (hits.map QueryHit.id) rows) :
    ((searchSimilarClauses hits rows).length : ℤ) ≤ 0 ↔ ∀ hit ∈ hits, ¬HasRow s hit.id := by
  rw [length_searchSimilarClauses, Int.natCast_nonpos_iff, List.length_eq_zero_iff,
    List.filter_eq_nil_iff]
  refine forall₂_congr fun hit hhit => ?_
  rw [decide_eq_true_iff, hrows.exists_iff (List.mem_map_of_mem hhit)]

end Results

theorem map_fst_cells_sublist (manifest : List (ManifestEntry ν)) (rows : List (List β)) :
    ((cells manifest rows).map Prod.fst).Sublist (manifest.map ManifestEntry.id) := by
  induction manifest generalizing rows with
  | nil => exact List.Sublist.refl []
  | cons entry manifest ih =>
    cases rows with
    | nil => exact List.nil_sublist _
    | cons row rows => exact (ih rows).cons_cons entry.id

variable [Ring β]

def scored (index : LocalNumpyIndex β ν) (q : List β) : List (QueryHit β ν) :=
  (cells index.manifest index.vectors.rows).map (hitOf q)

theorem mem_scored {index : LocalNumpyIndex β ν} {q : List β} {hit : QueryHit β ν}
    (h : hit ∈ scored index q) :
    ∃ (i : ℕ) (entry : ManifestEntry ν) (row : List β), index.manifest[i]? = some entry ∧
      index.vectors.rows[i]? = some row ∧ hit.id = entry.id ∧ hit.score = dot row q := by
  obtain ⟨cell, hcell, rfl⟩ := List.mem_map.mp h
  obtain ⟨i, hi⟩ := List.mem_iff_getElem?.mp hcell
  unfold cells at hi
  obtain ⟨entry, row, hentry, hrow, rfl⟩ := List.getElem?_zipWith_eq_some.mp hi
  exact ⟨i, entry, row, hentry, hrow, rfl, rfl⟩

theorem map_id_scored (index : LocalNumpyIndex β ν) (q : List β) :
    ((scored index q).map QueryHit.id).Sublist index.ids := by
  rw [scored, List.map_map]
  exact map_fst_cells_sublist index.manifest index.vectors.rows

theorem scoreCandidates_eq_ok {manifest : List (ManifestEntry ν)} {rows : List (List β)}
    {q : List β} (before : List β) {hits : List (QueryHit β ν)}
    (h : scoreCandidates (before ++ rows.map fun row => dot row q)
      (manifest.zipIdx before.length) = .ok hits) :
    hits = (cells manifest rows).map (hitOf q) := by
  induction manifest generalizing rows before hits with
  | nil =>
    cases h
    simp [cells]
  | cons entry manifest ih =>
    rw [List.zipIdx_cons, scoreCandidates] at h
    cases rows with
    | nil => simp at h
    | cons row rows =>
      rw [List.map_cons, List.getElem?_append_right le_rfl, Nat.sub_self,
        List.getElem?_cons_zero] at h
      dsimp only at h
      split at h
      · cases h
      next rest hrest =>
        cases h
        have hsplit : before ++ dot row q :: rows.map (fun row => dot row q) =
            (before ++ [dot row q]) ++ rows.map fun row => dot row q := by simp
        have hlength : before.length + 1 = (before ++ [dot row q]).length := by simp
        rw [hsplit, hlength] at hrest
        rw [ih _ hrest]
        rfl

variable [LinearOrder β]

theorem query_eq_ok {f32 : α → β} {null : ν} {eq : ν → ν → Bool} {index : LocalNumpyIndex β ν}
    {vector : List α} {topK : ℤ} {hits : List (QueryHit β ν)}
    (h : index.query f32 null eq vector topK none = .ok hits) :
    hits = sliceTo topK (sortedBy (fun hit => -hit.score) (scored index (vector.map f32))) := by
  unfold LocalNumpyIndex.query at h
  split_ifs at h with hempty
  · cases h
    simp [scored, cells, hempty, sliceTo, sortedBy]
  · unfold NdArray.matVec at h
    split_ifs at h with hfits
    dsimp only at h
    split at h
    · cases h
    next hits' hscore =>
      cases h
      have hall : (index.manifest.zipIdx.filter fun c => accepts null eq none c.1.metadata) =
          index.manifest.zipIdx := List.filter_eq_self.mpr fun _ _ => rfl
      rw [hall] at hscore
      rw [scoreCandidates_eq_ok [] hscore, scored]

/-- The tool on the local store: the query, and what the table yields for the ids. -/
def searchLocal (f32 : α → β) (null : ν) (eq : ν → ν → Bool) (index : LocalNumpyIndex β ν)
    (select : List String → List SelectedClause) (vector : List α) (topK : ℤ) :
    Except StoreError (List (SearchResult β)) :=
  match index.query f32 null eq vector topK none with
  | .error e => .error e
  | .ok hits => .ok (searchSimilarClauses hits (select (hits.map QueryHit.id)))

/-- A negative bound keeps its promise if the stored entries with a row are among the
`-topK` last of the ranking, that is, if all others rank before each of them. -/
def RowsRankLast (s : Stores γ τ) (index : LocalNumpyIndex β ν) (q : List β) (topK : ℤ) : Prop :=
  ∀ i hit, (scored index q)[i]? = some hit → HasRow s hit.id →
    (scored index q).length + topK ≤ rank (fun hit => -hit.score) (scored index q) hit i

section Bound

variable {s : Stores γ τ} {index : LocalNumpyIndex β ν} {q : List β} {topK : ℤ}
  {hits : List (QueryHit β ν)} {rows : List SelectedClause}

theorem length_le_of_nonneg (hnonneg : 0 ≤ topK)
    (hhits : hits = sliceTo topK (sortedBy (fun hit => -hit.score) (scored index q))) :
    ((searchSimilarClauses hits rows).length : ℤ) ≤ max topK 0 := by
  have hslice : hits.length ≤ topK.toNat := by
    rw [hhits, sliceTo, if_pos hnonneg]
    exact List.length_take_le _ _
  have hfilter : (searchSimilarClauses hits rows).length ≤ hits.length := by
    rw [length_searchSimilarClauses]
    exact List.length_filter_le _ _
  omega

/-- With a negative bound the matches are those with enough entries ranked before them. -/
theorem mem_sliceTo_iff_of_neg (hneg : ¬0 ≤ topK) {hit : QueryHit β ν} :
    hit ∈ sliceTo topK (sortedBy (fun hit => -hit.score) (scored index q)) ↔
      ∃ i, (scored index q)[i]? = some hit ∧
        (rank (fun hit => -hit.score) (scored index q) hit i : ℤ) <
          (scored index q).length + topK := by
  rw [sliceTo, if_neg hneg, mem_take_sortedBy_iff, length_sortedBy]
  refine exists_congr fun i => and_congr_right fun _ => ?_
  omega

/-- The number of results is within the bound exactly if the bound is not negative or the
entries with a row rank last. -/
theorem length_le_iff
    (hhits : hits = sliceTo topK (sortedBy (fun hit => -hit.score) (scored index q)))
    (hrows : Selects s (hits.map QueryHit.id) rows) :
    ((searchSimilarClauses hits rows).length : ℤ) ≤ max topK 0 ↔
      0 ≤ topK ∨ RowsRankLast s index q topK := by
  by_cases hnonneg : 0 ≤ topK
  · constructor
    · intro _
      exact Or.inl hnonneg
    · intro _
      exact length_le_of_nonneg hnonneg hhits
  · have hmax : max topK 0 = 0 := by omega
    rw [hmax, length_le_zero_iff hrows, or_iff_right hnonneg, RowsRankLast]
    constructor
    · intro h i hit hi hrow
      by_contra hlt
      apply h hit _ hrow
      rw [hhits, mem_sliceTo_iff_of_neg hnonneg]
      exact ⟨i, hi, not_le.mp hlt⟩
    · intro h hit hhit hrow
      rw [hhits, mem_sliceTo_iff_of_neg hnonneg] at hhit
      obtain ⟨i, hi, hrank⟩ := hhit
      exact absurd (h i hit hi hrow) (not_le.mpr hrank)

end Bound

/-- What the tool promises of its results: at most `top_k`, each the row of a stored id with
its score, none repeated, by descending score. -/
structure Respects (s : Stores γ τ) (index : LocalNumpyIndex β ν) (q : List β) (topK : ℤ)
    (results : List (SearchResult β)) : Prop where
  within : (results.length : ℤ) ≤ max topK 0
  stored : ∀ result ∈ results, ∃ (i : ℕ) (entry : ManifestEntry ν) (row : List β),
    index.manifest[i]? = some entry ∧ index.vectors.rows[i]? = some row ∧
    result.clause.clauseId = entry.id ∧ result.score = dot row q ∧
    ∃ stored, s.clauses (result.clause.contractId, result.clause.clauseId) = some stored ∧
      result.clause.category = stored.category ∧ result.clause.text = stored.text
  once : index.ids.Nodup → (results.map fun result => result.clause.clauseId).Nodup
  ordered : results.Pairwise fun a b => b.score ≤ a.score

section Ranked

variable {s : Stores γ τ} {index : LocalNumpyIndex β ν} {q : List β} {k : ℕ}
  {hits : List (QueryHit β ν)} {rows : List SelectedClause}

theorem stored_of_mem (hhits : hits = (sortedBy (fun hit => -hit.score) (scored index q)).take k)
    (hrows : Selects s (hits.map QueryHit.id) rows) {result : SearchResult β}
    (hresult : result ∈ searchSimilarClauses hits rows) :
    ∃ (i : ℕ) (entry : ManifestEntry ν) (row : List β),
      index.manifest[i]? = some entry ∧ index.vectors.rows[i]? = some row ∧
      result.clause.clauseId = entry.id ∧ result.score = dot row q ∧
      ∃ stored, s.clauses (result.clause.contractId, result.clause.clauseId) = some stored ∧
        result.clause.category = stored.category ∧ result.clause.text = stored.text := by
  obtain ⟨hit, hhit, hclause, hid, hscore⟩ := mem_searchSimilarClauses hresult
  have hstored : hit ∈ scored index q := by
    rw [hhits] at hhit
    exact mem_sortedBy.mp (List.mem_of_mem_take hhit)
  obtain ⟨i, entry, row, hentry, hrow, hid', hscore'⟩ := mem_scored hstored
  obtain ⟨-, hclauses⟩ := (hrows.mem_iff _).mp hclause
  exact ⟨i, entry, row, hentry, hrow, hid.trans hid', hscore.trans hscore', hclauses⟩

theorem nodup_clauseId (hhits : hits = (sortedBy (fun hit => -hit.score) (scored index q)).take k)
    (hids : index.ids.Nodup) :
    ((searchSimilarClauses hits rows).map fun result => result.clause.clauseId).Nodup := by
  have hranked : ((sortedBy (fun hit => -hit.score) (scored index q)).map QueryHit.id).Nodup := by
    rw [((perm_sortedBy _ _).map QueryHit.id).nodup_iff]
    exact hids.sublist (map_id_scored index q)
  have honce : (hits.map QueryHit.id).Nodup := by
    rw [hhits]
    exact hranked.sublist ((List.take_sublist k _).map QueryHit.id)
  have hsub := (sublist_searchSimilarClauses hits rows).map Prod.fst
  rw [List.map_map, List.map_map] at hsub
  exact honce.sublist hsub

variable [IsOrderedRing β]

theorem pairwise_score (hhits : hits = (sortedBy (fun hit => -hit.score) (scored index q)).take k) :
    (searchSimilarClauses hits rows).Pairwise fun a b => b.score ≤ a.score := by
  have hranked : (sortedBy (fun hit : QueryHit β ν => -hit.score) (scored index q)).Pairwise
      (Outranks (fun hit => -hit.score) fun _ _ => True) :=
    pairwise_sortedBy (List.pairwise_of_forall fun _ _ => trivial)
  have hordered : (hits.map QueryHit.score).Pairwise fun a b => b ≤ a := by
    rw [List.pairwise_map, hhits]
    apply (hranked.sublist (List.take_sublist k _)).imp
    rintro a b (hlt | ⟨heq, -⟩)
    · exact (neg_lt_neg_iff.mp hlt).le
    · exact (neg_inj.mp heq).ge
  have hsub := (sublist_searchSimilarClauses hits rows).map Prod.snd
  rw [List.map_map, List.map_map] at hsub
  exact List.pairwise_map.mp (hordered.sublist hsub)

end Ranked

variable [IsOrderedRing β]

/-- The search returns if there is a row for every entry and the vector fits. Whenever it
returns, on any index and for any bound, it keeps its promises exactly if the bound is not
negative or the entries with a row rank last. -/
theorem searchLocal_within_iff (f32 : α → β) (null : ν) (eq : ν → ν → Bool) {s : Stores γ τ}
    {select : List String → List SelectedClause} (hselect : ∀ ids, Selects s ids (select ids))
    (index : LocalNumpyIndex β ν) (vector : List α) (topK : ℤ) :
    (index.Aligned → vector.length = index.vectors.cols →
      ∃ results, searchLocal f32 null eq index select vector topK = .ok results) ∧
    ∀ results, searchLocal f32 null eq index select vector topK = .ok results →
      (Respects s index (vector.map f32) topK results ↔
        0 ≤ topK ∨ RowsRankLast s index (vector.map f32) topK) := by
  constructor
  · intro haligned hfits
    unfold searchLocal
    rw [query_of_aligned null eq haligned hfits]
    exact ⟨_, rfl⟩
  · intro results h
    unfold searchLocal at h
    split at h
    · cases h
    next hits hquery =>
      cases h
      have hhits := query_eq_ok hquery
      have hrows := hselect (hits.map QueryHit.id)
      rw [← length_le_iff hhits hrows]
      constructor
      · exact Respects.within
      · intro hwithin
        exact ⟨hwithin, fun result => stored_of_mem hhits hrows, nodup_clauseId hhits,
          pairwise_score hhits⟩

/-- A table with the given rows; the columns that a search does not read are as after an
ingestion. -/
def tableOf (rows : List SelectedClause) : Stores ℤ ℕ :=
  { Stores.empty with
    clauses := fun key =>
      (rows.find? fun row => (row.contractId, row.clauseId) = key).map fun row =>
        ⟨row.category, row.text, none, none, row.clauseId, 0⟩ }

theorem selects_tableOf {rows : List SelectedClause}
    (h : (rows.map fun row => (row.contractId, row.clauseId)).Nodup) (ids : List String) :
    Selects (tableOf rows) ids (rows.filter fun row => row.clauseId ∈ ids) := by
  refine ⟨h.of_map.filter _, fun row => ?_⟩
  rw [List.mem_filter, decide_eq_true_iff, and_comm]
  refine and_congr_right fun _ => ?_
  constructor
  · intro hrow
    cases hfind : rows.find? fun other =>
        (other.contractId, other.clauseId) = (row.contractId, row.clauseId) with
    | none => simpa using List.find?_eq_none.mp hfind row hrow
    | some other =>
      have hkey : (other.contractId, other.clauseId) = (row.contractId, row.clauseId) := by
        simpa using List.find?_some hfind
      have heq : other = row :=
        List.inj_on_of_nodup_map h (List.mem_of_find?_eq_some hfind) hrow hkey
      refine ⟨⟨row.category, row.text, none, none, row.clauseId, 0⟩, ?_, rfl, rfl⟩
      change (rows.find? _).map _ = _
      rw [hfind, Option.map_some, heq]
  · rintro ⟨stored, hstored, hcategory, htext⟩
    obtain ⟨other, hfind, rfl⟩ := Option.map_eq_some_iff.mp hstored
    have hkey : other.contractId = row.contractId ∧ other.clauseId = row.clauseId := by
      simpa using List.find?_some hfind
    have heq : other = row := by
      obtain ⟨clauseId, contractId, category, text⟩ := row
      obtain ⟨rfl, rfl⟩ := hkey
      cases hcategory
      cases htext
      rfl
    exact heq ▸ List.mem_of_find?_eq_some hfind

/-- Of two stored clauses, the search for one returns the closer one. -/
theorem searchLocal_within_iff_two_clauses :
    let index := ((LocalNumpyIndex.init 1 ⟨none, none⟩).update (id : ℤ → ℤ)
      [⟨some "a", some [1], none⟩, ⟨some "b", some [2], none⟩]).1
    let rows : List SelectedClause :=
      [⟨"a", "c", "Parties", "the seller"⟩, ⟨"b", "c", "Renewal Term", "one year"⟩]
    ∃ results, searchLocal id "null" (· == ·) index
        (fun ids => rows.filter fun row => row.clauseId ∈ ids) [1] 1 = .ok results ∧
      Respects (tableOf rows) index [1] 1 results ∧
      results.map (fun result => (result.clause.clauseId, result.score)) = [("b", 2)] := by
  intro index rows
  obtain ⟨hreturns, hrespects⟩ := searchLocal_within_iff id "null" (· == ·)
    (@selects_tableOf rows (by decide)) index [1] 1
  obtain ⟨results, hresults⟩ := hreturns rfl rfl
  refine ⟨results, hresults, (hrespects results hresults).mpr (Or.inl (by decide)), ?_⟩
  cases hresults
  decide

/-- With the bound `-1` the search returns all but one of the clauses: one too many. -/
theorem negative_limit_returns_clause :
    let index := ((LocalNumpyIndex.init 1 ⟨none, none⟩).update (id : ℤ → ℤ)
      [⟨some "a", some [1], none⟩, ⟨some "b", some [2], none⟩]).1
    let rows : List SelectedClause :=
      [⟨"a", "c", "Parties", "the seller"⟩, ⟨"b", "c", "Renewal Term", "one year"⟩]
    let select := fun ids : List String => rows.filter fun row => row.clauseId ∈ ids
    (∀ ids, Selects (tableOf rows) ids (select ids)) ∧
      ∃ results, searchLocal id "null" (· == ·) index select [1] (-1) = .ok results ∧
        max (-1) 0 < (results.length : ℤ) := by
  intro index rows select
  refine ⟨selects_tableOf (by decide), _, rfl, ?_⟩
  decide

end LegalLens.Retrieval
