import LegalLens.Retrieval.ExtractClauses
import LegalLens.Retrieval.SearchLimit

/-!
# Search over what has been ingested

`VectorStore.query` returns the best matches of a query vector, highest score first. Once the
calls of the driver have been carried out, every match has its row, and the rows have the texts
whose embeddings were compared. So the search ranks the annotations of the documents.
-/

namespace LegalLens.Retrieval

open Ingestion Orchestration

variable {β γ τ ν ε : Type*}

section Matches

variable [LinearOrder γ]

/-- The matches are an answer of the store to a query for the `k` best: stored ids, each once,
with the scores of their vectors, highest score first; whatever is left out would have to
displace one of `k` matches and scores no better than any of them. -/
structure TopMatches (similarity : List β → List β → γ)
    (vectors : String → Option (List β × VectorMetadata)) (q : List β) (k : ℕ)
    (hits : List (QueryHit γ ν)) : Prop where
  once : (hits.map QueryHit.id).Nodup
  stored : ∀ hit ∈ hits, ∃ cell, vectors hit.id = some cell ∧ hit.score = similarity cell.1 q
  ordered : hits.Pairwise fun a b => b.score ≤ a.score
  length_le : hits.length ≤ k
  best : ∀ id cell, vectors id = some cell → id ∉ hits.map QueryHit.id →
    hits.length = k ∧ ∀ hit ∈ hits, similarity cell.1 q ≤ hit.score

end Matches

/-- The answer of the local store is one, if it holds the vectors. -/
theorem topMatches_of_answersTopK [Ring β] [LinearOrder β] {contents : Contents β ν}
    {vectors : String → Option (List β × VectorMetadata)} {q : List β} {k : ℕ}
    {hits : List (QueryHit β ν)} (h : AnswersTopK contents q (fun _ => true) k hits)
    (hvectors : ∀ id, (contents.get? id).map Prod.fst = (vectors id).map Prod.fst) :
    TopMatches dot vectors q k hits := by
  have hcell : ∀ id row, (vectors id).map Prod.fst = some row ↔
      ∃ metadata, contents.get? id = some (row, metadata) := by
    intro id row
    rw [← hvectors, Option.map_eq_some_iff]
    constructor
    · rintro ⟨⟨_, metadata⟩, hitem, rfl⟩
      exact ⟨metadata, hitem⟩
    · rintro ⟨metadata, hitem⟩
      exact ⟨_, hitem, rfl⟩
  constructor
  · exact h.once
  · intro hit hhit
    obtain ⟨-, row, hrow, hscore⟩ := h.current hit hhit
    obtain ⟨cell, hcell, rfl⟩ := Option.map_eq_some_iff.mp ((hcell hit.id row).mpr ⟨_, hrow⟩)
    exact ⟨cell, hcell, hscore⟩
  · apply h.ordered.imp
    rintro a b (hlt | ⟨heq, -⟩)
    · exact hlt.le
    · exact heq.ge
  · rw [h.length]
    exact min_le_left _ _
  · intro id cell hid hout
    obtain ⟨metadata, hitem⟩ := (hcell id cell.1).mp (by rw [hid]; rfl)
    have hbest := h.best id cell.1 metadata hitem rfl hout
    constructor
    · -- fewer than `k` matches would be all entries
      by_contra hne
      have hlength : hits.length = contents.entries.length := by
        have hlength := h.length
        rw [List.filter_eq_self.mpr fun _ _ => rfl] at hlength
        omega
      have hsubset : hits.map QueryHit.id ⊆ contents.keys := by
        intro id' hid'
        obtain ⟨hit, hhit, rfl⟩ := List.mem_map.mp hid'
        obtain ⟨-, row, hrow, -⟩ := h.current hit hhit
        exact Dict.mem_keys_iff.mpr ⟨_, hrow⟩
      have hperm := (h.once.subperm hsubset).perm_of_length_le (by
        rw [List.length_map, hlength, Dict.keys, List.length_map])
      exact hout (hperm.mem_iff.mpr (Dict.mem_keys_iff.mpr ⟨_, hitem⟩))
    · intro hit hhit
      rcases hbest hit hhit with hlt | ⟨heq, -⟩
      · exact hlt.le
      · exact heq.ge

section Rows

variable [LinearOrder γ] {embed : String → List β} {tasks : List IngestTask} {s : Stores β τ}
  {similarity : List β → List β → γ} {q : List β} {k : ℕ} {hits : List (QueryHit γ ν)}
  {rows : List SelectedClause}

/-- A clause of a task, as a row of the query of the search. -/
def selectedOf (t : IngestTask) (c : ParsedClause) : SelectedClause :=
  ⟨c.clauseId, t.payload.contractId, c.category, c.text⟩

theorem selected_of_sound (hs : s.Sound embed tasks) {ids : List String}
    (hrows : Selects s ids rows) {row : SelectedClause} (hrow : row ∈ rows) :
    ∃ t ∈ tasks, ∃ c ∈ t.payload.clauses, row = selectedOf t c := by
  obtain ⟨-, stored, hstored, hcategory, htext⟩ := (hrows.mem_iff row).mp hrow
  obtain ⟨t, ht, c, hc, hkey, hcontent⟩ := hs.clauses _ stored hstored
  obtain ⟨hcid, hid⟩ := Prod.mk.inj hkey
  simp only [ClauseRow.withoutTime, ClauseRow.mk.injEq] at hcontent
  refine ⟨t, ht, c, hc, ?_⟩
  obtain ⟨clauseId, contractId, category, text⟩ := row
  simp only [selectedOf, SelectedClause.mk.injEq]
  exact ⟨hid, hcid, hcategory.trans hcontent.1, htext.trans hcontent.2.1⟩

theorem selects_of_sound (hs : s.Sound embed tasks) {ids : List String} (hnodup : rows.Nodup)
    (hstored : ∀ row ∈ rows, row.clauseId ∈ ids ∧
      ∃ stored, s.clauses (row.contractId, row.clauseId) = some stored ∧
        row.category = stored.category ∧ row.text = stored.text)
    (hall : ∀ t ∈ tasks, ∀ c ∈ t.payload.clauses, c.clauseId ∈ ids → selectedOf t c ∈ rows) :
    Selects s ids rows := by
  refine ⟨hnodup, fun row => ⟨hstored row, ?_⟩⟩
  rintro ⟨hid, stored, hrow, hcategory, htext⟩
  obtain ⟨t, ht, c, hc, hkey, hcontent⟩ := hs.clauses _ stored hrow
  obtain ⟨hcid, hcid'⟩ := Prod.mk.inj hkey
  simp only [ClauseRow.withoutTime, ClauseRow.mk.injEq] at hcontent
  have hrow : row = selectedOf t c := by
    rw [selectedOf, ← hcid, ← hcid', ← hcontent.1, ← hcontent.2.1, ← hcategory, ← htext]
  rw [hrow]
  apply hall t ht c hc
  rwa [← hcid']

theorem topMatches_of_sound (hs : s.Sound embed tasks) (honce : (hits.map QueryHit.id).Nodup)
    (hstored : ∀ hit ∈ hits, ∃ cell, s.vectors hit.id = some cell ∧ hit.score = similarity cell.1 q)
    (hordered : hits.Pairwise fun a b => b.score ≤ a.score) (hlength : hits.length ≤ k)
    (hbest : ∀ t ∈ tasks, ∀ c ∈ t.payload.clauses, c.clauseId ∉ hits.map QueryHit.id →
      hits.length = k ∧ ∀ hit ∈ hits, similarity (embed c.text) q ≤ hit.score) :
    TopMatches similarity s.vectors q k hits := by
  refine ⟨honce, hstored, hordered, hlength, fun id cell hcell hout => ?_⟩
  obtain ⟨t, ht, c, hc, rfl, rfl⟩ := hs.vectors id cell hcell
  exact hbest t ht c hc hout

/-- Every match has its row: none is skipped. -/
theorem map_id_results (hs : s.Sound embed tasks) (hall : ∀ t ∈ tasks, s.Has t)
    (hhits : TopMatches similarity s.vectors q k hits)
    (hrows : Selects s (hits.map QueryHit.id) rows) :
    (searchSimilarClauses hits rows).map (fun result => (result.clause.clauseId, result.score)) =
      hits.map fun hit => (hit.id, hit.score) := by
  rw [map_searchSimilarClauses, List.filter_eq_self.mpr]
  intro hit hhit
  obtain ⟨cell, hcell, -⟩ := hhits.stored hit hhit
  obtain ⟨t, ht, c, hc, hid, -⟩ := hs.vectors _ cell hcell
  have hrow : HasRow s hit.id := by
    rw [hid]
    exact ⟨_, (hall t ht).2.2 c hc⟩
  exact decide_eq_true ((hrows.exists_iff (List.mem_map_of_mem hhit)).mpr hrow)

theorem length_results (hs : s.Sound embed tasks) (hall : ∀ t ∈ tasks, s.Has t)
    (hhits : TopMatches similarity s.vectors q k hits)
    (hrows : Selects s (hits.map QueryHit.id) rows) :
    (searchSimilarClauses hits rows).length = hits.length := by
  have hlength := congrArg List.length (map_id_results hs hall hhits hrows)
  rwa [List.length_map, List.length_map] at hlength

theorem ordered_results (hs : s.Sound embed tasks) (hall : ∀ t ∈ tasks, s.Has t)
    (hhits : TopMatches similarity s.vectors q k hits)
    (hrows : Selects s (hits.map QueryHit.id) rows) :
    ((searchSimilarClauses hits rows).map SearchResult.clause).Nodup ∧
      (searchSimilarClauses hits rows).Pairwise fun a b => b.score ≤ a.score := by
  have hmap := map_id_results hs hall hhits hrows
  constructor
  · have hids := congrArg (List.map Prod.fst) hmap
    rw [List.map_map, List.map_map] at hids
    have hnodup : (((searchSimilarClauses hits rows).map SearchResult.clause).map
        SelectedClause.clauseId).Nodup := by
      rw [List.map_map]
      exact hids ▸ hhits.once
    exact hnodup.of_map
  · have hpairs : (hits.map fun hit => (hit.id, hit.score)).Pairwise fun a b => b.2 ≤ a.2 :=
      List.pairwise_map.mpr hhits.ordered
    rw [← hmap] at hpairs
    exact List.pairwise_map.mp hpairs

theorem cell_of_sound (hkeys : KeyDetermined tasks) (hs : s.Sound embed tasks) {t : IngestTask}
    (ht : t ∈ tasks) {c : ParsedClause} (hc : c ∈ t.payload.clauses)
    {cell : List β × VectorMetadata} (hcell : s.vectors c.clauseId = some cell) :
    cell.1 = embed c.text := by
  obtain ⟨t', ht', c', hc', hid, rfl⟩ := hs.vectors _ cell hcell
  obtain ⟨-, -, htext⟩ := hkeys.clause t ht c hc t' ht' c' hc' hid
  rw [htext]

theorem result_of_sound (hkeys : KeyDetermined tasks) (hs : s.Sound embed tasks)
    (hhits : TopMatches similarity s.vectors q k hits)
    (hrows : Selects s (hits.map QueryHit.id) rows) {result : SearchResult γ}
    (hresult : result ∈ searchSimilarClauses hits rows) :
    ∃ t ∈ tasks, ∃ c ∈ t.payload.clauses,
      result = ⟨selectedOf t c, similarity (embed c.text) q⟩ := by
  obtain ⟨hit, hhit, hrow, hid, hscore⟩ := mem_searchSimilarClauses hresult
  obtain ⟨t, ht, c, hc, hclause⟩ := selected_of_sound hs hrows hrow
  obtain ⟨cell, hcell, hsimilarity⟩ := hhits.stored hit hhit
  rw [← hid, hclause] at hcell
  refine ⟨t, ht, c, hc, ?_⟩
  obtain ⟨clause, score⟩ := result
  simp only [SearchResult.mk.injEq]
  exact ⟨hclause, hscore.trans (by rw [hsimilarity, cell_of_sound hkeys hs ht hc hcell])⟩

/-- A clause of a task is the clause of a result, or `k` others score at least as high. -/
theorem result_or_better (hkeys : KeyDetermined tasks) (hs : s.Sound embed tasks)
    (hall : ∀ t ∈ tasks, s.Has t) (hhits : TopMatches similarity s.vectors q k hits)
    (hrows : Selects s (hits.map QueryHit.id) rows) {t : IngestTask} (ht : t ∈ tasks)
    {c : ParsedClause} (hc : c ∈ t.payload.clauses) :
    ⟨selectedOf t c, similarity (embed c.text) q⟩ ∈ searchSimilarClauses hits rows ∨
      (searchSimilarClauses hits rows).length = k ∧
        ∀ result ∈ searchSimilarClauses hits rows, similarity (embed c.text) q ≤ result.score := by
  have hmap := map_id_results hs hall hhits hrows
  obtain ⟨cell, hcell⟩ := Option.isSome_iff_exists.mp ((hall t ht).2.1 c hc)
  by_cases hmem : c.clauseId ∈ hits.map QueryHit.id
  · left
    obtain ⟨hit, hhit, hid⟩ := List.mem_map.mp hmem
    have hpair : (hit.id, hit.score) ∈ (searchSimilarClauses hits rows).map
        fun result => (result.clause.clauseId, result.score) := by
      rw [hmap]
      exact List.mem_map_of_mem hhit
    obtain ⟨result, hresult, heq⟩ := List.mem_map.mp hpair
    obtain ⟨t', ht', c', hc', rfl⟩ := result_of_sound hkeys hs hhits hrows hresult
    have hsame : c'.clauseId = c.clauseId := (Prod.mk.inj heq).1.trans hid
    obtain ⟨hcid, hcategory, htext⟩ := hkeys.clause t' ht' c' hc' t ht c hc hsame
    simp only [selectedOf, hsame, hcid, hcategory, htext] at hresult
    exact hresult
  · right
    obtain ⟨hlength, hscores⟩ := hhits.best c.clauseId cell hcell hmem
    rw [cell_of_sound hkeys hs ht hc hcell] at hscores
    constructor
    · rw [length_results hs hall hhits hrows, hlength]
    · intro result hresult
      obtain ⟨hit, hhit, -, -, hscore⟩ := mem_searchSimilarClauses hresult
      rw [hscore]
      exact hscores hit hhit

end Rows

section Driven

open IngestDriver

variable [LinearOrder γ] {hash : String → ℕ} {dump : IngestTask → ε} {load : ε → Option IngestTask}
  {embed : String → List β} {sha1 : String → BitVec 160} {docs : List CuadDocument}
  {calls : ℕ → Option Call} {acts : List (DeploymentAction τ)} {s : Deployment β τ ε}

/-- The clause of an annotation, as a row of the query of the search. -/
def annotatedClause (sha1 : String → BitVec 160) (entry : CuadEntry) (a : AnnotatedText) :
    SelectedClause :=
  let cid := contractId sha1 entry.title
  ⟨clauseId sha1 cid a.category a.text, cid, a.category, a.text⟩

theorem selectedOf_annotated {entry : CuadEntry} {c : ParsedClause}
    (hc : c ∈ (parseEntry sha1 entry).clauses) {a : AnnotatedText}
    (hcategory : a.category = c.category) (htext : a.text = c.text) :
    selectedOf (ingestTask (parseEntry sha1 entry)) c = annotatedClause sha1 entry a := by
  obtain ⟨hcid, hid, -⟩ := mem_entryClauses (mem_unique hc)
  rw [hcid] at hid
  rw [selectedOf, annotatedClause, hid, hcategory, htext]
  rfl

/-- From the documents to the answer of the search. When the calls of the driver have been
carried out, the results are the annotations of the entries taken whose texts are most similar
to the query: each result is such an annotation with the similarity of its text, no annotation
appears twice, the order is by similarity, and an annotation that does not appear is no more
similar than any of `top_k` results. -/
theorem search_after_ingest (hsha1 : InjectiveOnHashed sha1 docs)
    (hdocs : ∀ d call, calls d = some call → call.raw ∈ docs)
    (hcodec : ∀ entry, Takes calls entry →
      load (dump (ingestTask (parseEntry sha1 entry))) = some (ingestTask (parseEntry sha1 entry)))
    (hdriven : DrivenBy sha1 calls (acts.filterMap DeploymentAction.cluster?))
    (hrun : Runs.run (Deployment.step hash dump load embed) .start acts = some s)
    (hall : s.Ingested) (similarity : List β → List β → γ) (query : String) (topK : ℕ)
    {hits : List (QueryHit γ ν)} {rows : List SelectedClause}
    (hhits : TopMatches similarity s.stores.vectors (embed query) topK hits)
    (hrows : Selects s.stores (hits.map QueryHit.id) rows) :
    let results := searchSimilarClauses hits rows
    (∀ result ∈ results, ∃ entry, Takes calls entry ∧ ∃ a ∈ annotations entry,
        result = ⟨annotatedClause sha1 entry a, similarity (embed a.text) (embed query)⟩) ∧
      (results.map SearchResult.clause).Nodup ∧
      (results.Pairwise fun a b => b.score ≤ a.score) ∧
      results.length ≤ topK ∧
      ∀ entry, Takes calls entry → ∀ a ∈ annotations entry,
        annotatedClause sha1 entry a ∈ results.map SearchResult.clause ∨
          results.length = topK ∧
            ∀ result ∈ results, similarity (embed a.text) (embed query) ≤ result.score := by
  intro results
  obtain ⟨hkeys, hsound, hcompleted⟩ := sound_of_driven hsha1 hdocs hcodec hdriven hrun
  have htasks := mem_ingestTasks_iff hdriven hrun
  have hhas : ∀ t ∈ s.ingestTasks, s.stores.Has t := by
    intro t ht
    obtain ⟨sent, hsent, rfl⟩ := hall t ht
    exact hcompleted sent hsent
  obtain ⟨hnodup, hordered⟩ := ordered_results hsound hhas hhits hrows
  refine ⟨?_, hnodup, hordered, ?_, ?_⟩
  · intro result hresult
    obtain ⟨t, ht, c, hc, rfl⟩ := result_of_sound hkeys hsound hhits hrows hresult
    obtain ⟨entry, hentry, rfl⟩ := (htasks t).mp ht
    obtain ⟨doc, hdoc, hmem⟩ := entry_mem_of_takes hdocs hentry
    obtain ⟨a, ha, hcategory, htext⟩ :=
      (exists_clause_iff hsha1 hdoc hmem c.category c.text).mp ⟨c, hc, rfl, rfl⟩
    exact ⟨entry, hentry, a, ha, by rw [selectedOf_annotated hc hcategory htext, htext]⟩
  · rw [length_results hsound hhas hhits hrows]
    exact hhits.length_le
  · intro entry hentry a ha
    obtain ⟨doc, hdoc, hmem⟩ := entry_mem_of_takes hdocs hentry
    obtain ⟨c, hc, hcategory, htext⟩ :=
      (exists_clause_iff hsha1 hdoc hmem a.category a.text).mpr ⟨a, ha, rfl, rfl⟩
    have ht := (htasks _).mpr ⟨entry, hentry, rfl⟩
    have hresult := result_or_better hkeys hsound hhas hhits hrows ht hc
    rw [selectedOf_annotated hc hcategory.symm htext.symm, htext] at hresult
    exact hresult.imp_left fun hmem => List.mem_map_of_mem hmem

/-- The two best of three annotations, in a document with two entries of one title. -/
theorem search_after_ingest_shared_title :
    let embed := fun text : String => [text.length]
    let similarity := fun v q : List ℕ => v.sum * q.sum
    let hits : List (QueryHit ℕ String) :=
      [⟨"15db50f7a0616bf4-2c08073f3f", 40, Dict.empty⟩,
        ⟨"15db50f7a0616bf4-53734225d0", 32, Dict.empty⟩]
    let rows : List SelectedClause :=
      [⟨"15db50f7a0616bf4-53734225d0", "15db50f7a0616bf4", "governing_law", "Delaware"⟩,
        ⟨"15db50f7a0616bf4-2c08073f3f", "15db50f7a0616bf4", "parties", "Zeta | Co."⟩]
    ∃ s : Deployment ℕ ℕ IngestTask,
      Runs.run (Deployment.step (fun _ => 0) id some embed) .start sampleActs = some s ∧
      TopMatches similarity s.stores.vectors (embed "Acme") 2 hits ∧
      Selects s.stores (hits.map QueryHit.id) rows ∧
      ∀ result ∈ searchSimilarClauses hits rows, ∃ entry ∈ sampleDocument.data,
        ∃ a ∈ annotations entry, result =
          ⟨annotatedClause sampleSha1 entry a, similarity (embed a.text) (embed "Acme")⟩ := by
  intro embed similarity hits rows
  obtain ⟨s, hs, hall, hsent⟩ := exists_sample_run
  have hvectors : ((Runs.run (Deployment.step (τ := ℕ) (fun _ => 0) id some embed) .start
      sampleActs).map fun s => hits.map fun hit =>
        (s.stores.vectors hit.id).map fun cell => similarity cell.1 (embed "Acme")) =
      some (hits.map fun hit => some hit.score) := by
    decide +kernel
  have hclauses : ((Runs.run (Deployment.step (τ := ℕ) (fun _ => 0) id some embed) .start
      sampleActs).map fun s => rows.map fun row =>
        (s.stores.clauses (row.contractId, row.clauseId)).map fun stored =>
          (stored.category, stored.text)) =
      some (rows.map fun row => some (row.category, row.text)) := by
    decide +kernel
  rw [hs, Option.map_some] at hvectors hclauses
  obtain ⟨-, hsound, -⟩ :=
    sound_of_driven injectiveOnHashed_sample raw_sampleCalls (fun _ _ => rfl) driven_sample hs
  have hhits : TopMatches similarity s.stores.vectors (embed "Acme") 2 hits := by
    apply topMatches_of_sound hsound
    · decide
    · intro hit hhit
      obtain ⟨cell, hcell, hscore⟩ :=
        Option.map_eq_some_iff.mp (List.map_inj_left.mp (Option.some.inj hvectors) hit hhit)
      exact ⟨cell, hcell, hscore.symm⟩
    · decide
    · decide
    · rw [hsent]
      decide +kernel
  have hrows : Selects s.stores (hits.map QueryHit.id) rows := by
    have hids : ∀ row ∈ rows, row.clauseId ∈ hits.map QueryHit.id := by decide
    apply selects_of_sound hsound
    · decide
    · intro row hrow
      obtain ⟨stored, hstored, hpair⟩ :=
        Option.map_eq_some_iff.mp (List.map_inj_left.mp (Option.some.inj hclauses) row hrow)
      obtain ⟨hcategory, htext⟩ := Prod.mk.inj hpair
      exact ⟨hids row hrow, stored, hstored, hcategory.symm, htext.symm⟩
    · rw [hsent]
      decide +kernel
  refine ⟨s, hs, hhits, hrows, fun result hresult => ?_⟩
  obtain ⟨hresults, -⟩ := search_after_ingest injectiveOnHashed_sample raw_sampleCalls
    (fun _ _ => rfl) driven_sample hs hall similarity "Acme" 2 hhits hrows
  obtain ⟨entry, hentry, hannotation⟩ := hresults result hresult
  exact ⟨entry, (takes_sample_iff entry).mp hentry, hannotation⟩

end Driven

end LegalLens.Retrieval
