import LegalLens.Ingestion.IngestHandler
import LegalLens.Ingestion.VectorQuery

/-!
# Tools of the agent

`search_similar_clauses` looks up the matches of the vector store among the clause rows, and
`score_clause_risk` reads a clause text in one transaction and writes its risk in another. A
query on the table yields a list of rows in any order.
-/

namespace LegalLens.Retrieval

open Ingestion

variable {β τ ν : Type*}

/-- A row of `SELECT clause_id, contract_id, category, text FROM clauses`. -/
structure SelectedClause where
  clauseId : String
  contractId : String
  category : String
  text : String
  deriving DecidableEq

/-- The list is a result of the query with `WHERE clause_id = ANY(:ids)`. -/
structure Selects (s : Stores β τ) (ids : List String) (rows : List SelectedClause) : Prop where
  nodup : rows.Nodup
  mem_iff : ∀ row, row ∈ rows ↔ row.clauseId ∈ ids ∧
    ∃ stored, s.clauses (row.contractId, row.clauseId) = some stored ∧
      row.category = stored.category ∧ row.text = stored.text

structure SearchResult (β : Type*) where
  clause : SelectedClause
  score : β

/-- `search_similar_clauses` for the given matches: those without a row are skipped. -/
def searchSimilarClauses (hits : List (QueryHit β ν)) (rows : List SelectedClause) :
    List (SearchResult β) :=
  if hits = [] then []
  else
    let byId := Dict.byKey SelectedClause.clauseId rows
    hits.filterMap fun hit => (byId.get? hit.id).map fun hydrated => ⟨hydrated, hit.score⟩

def HasRow (s : Stores β τ) (clauseId : String) : Prop :=
  ∃ contractId, (s.clauses (contractId, clauseId)).isSome

theorem Selects.exists_iff {s : Stores β τ} {ids : List String} {rows : List SelectedClause}
    (h : Selects s ids rows) {id : String} (hid : id ∈ ids) :
    (∃ row ∈ rows, row.clauseId = id) ↔ HasRow s id := by
  constructor
  · rintro ⟨row, hrow, rfl⟩
    obtain ⟨-, stored, hstored, -⟩ := (h.mem_iff row).mp hrow
    exact ⟨row.contractId, by simp [hstored]⟩
  · rintro ⟨cid, hrow⟩
    obtain ⟨stored, hstored⟩ := Option.isSome_iff_exists.mp hrow
    exact ⟨⟨id, cid, stored.category, stored.text⟩,
      (h.mem_iff _).mpr ⟨hid, stored, hstored, rfl, rfl⟩, rfl⟩

theorem map_searchSimilarClauses (hits : List (QueryHit β ν)) (rows : List SelectedClause) :
    (searchSimilarClauses hits rows).map (fun result => (result.clause.clauseId, result.score)) =
      (hits.filter fun hit => ∃ row ∈ rows, row.clauseId = hit.id).map
        fun hit => (hit.id, hit.score) := by
  unfold searchSimilarClauses
  split_ifs with hnil
  · simp [hnil]
  · dsimp only
    clear hnil
    induction hits with
    | nil => rfl
    | cons hit hits ih =>
      cases hrow : (Dict.byKey SelectedClause.clauseId rows).get? hit.id with
      | none =>
        have hno : ¬∃ row ∈ rows, row.clauseId = hit.id := by
          rw [← Dict.isSome_get?_byKey_iff, hrow]
          exact Bool.false_ne_true
        rw [List.filterMap_cons_none (by rw [hrow, Option.map_none]),
          List.filter_cons_of_neg (by simpa using hno), ih]
      | some row =>
        obtain ⟨hmem, hkey⟩ := Dict.mem_of_get?_byKey hrow
        rw [List.filterMap_cons_some (by rw [hrow, Option.map_some]),
          List.filter_cons_of_pos (by simpa using ⟨row, hmem, hkey⟩), List.map_cons,
          List.map_cons, ih, hkey]

theorem mem_searchSimilarClauses_iff {s : Stores β τ} {hits : List (QueryHit β ν)}
    {rows : List SelectedClause} (h : Selects s (hits.map QueryHit.id) rows) {hit : QueryHit β ν}
    (hhit : hit ∈ hits) :
    (hit.id, hit.score) ∈ (searchSimilarClauses hits rows).map
      (fun result => (result.clause.clauseId, result.score)) ↔ HasRow s hit.id := by
  rw [map_searchSimilarClauses, ← h.exists_iff (List.mem_map_of_mem hhit)]
  constructor
  · intro hmem
    obtain ⟨other, hother, heq⟩ := List.mem_map.mp hmem
    obtain ⟨hid, -⟩ := Prod.mk.inj heq
    rw [← hid]
    exact of_decide_eq_true (List.mem_filter.mp hother).2
  · intro hrow
    exact List.mem_map.mpr ⟨hit, List.mem_filter.mpr ⟨hhit, decide_eq_true hrow⟩, rfl⟩

section Risk

def highSignalTerms : List String :=
  ["unlimited liability", "perpetual", "exclusive", "non-compete", "indemnify", "irrevocable",
    "without limitation"]

def mediumSignalTerms : List String := ["terminate", "breach", "damages", "liability"]

/-- `any(t in text_lower for t in terms)`. -/
def anyOccurs (terms : List String) (textLower : List Char) : Bool :=
  terms.any fun t => decide (t.toList <:+: textLower)

structure Risk where
  level : String
  rationale : String
  deriving DecidableEq

def riskOf (text : String) : Risk :=
  let textLower := Text.lower text.toList
  if anyOccurs highSignalTerms textLower then
    ⟨"high", "Contains high-risk language (e.g. unlimited liability / non-compete / " ++
      "perpetual obligation). Worth a senior lawyer's review."⟩
  else if anyOccurs mediumSignalTerms textLower then
    ⟨"medium", "Standard but consequential clause — verify the specific terms align " ++
      "with our usual position."⟩
  else ⟨"low", "Routine language; no obvious red flags."⟩

/-- `UPDATE clauses SET risk_level = :lvl, risk_rationale = :why WHERE clause_id = :id`. -/
def updateRisk (s : Stores β τ) (clauseId : String) (risk : Risk) : Stores β τ :=
  { s with
    clauses := fun key =>
      if key.2 = clauseId then
        (s.clauses key).map fun row =>
          { row with riskLevel := some risk.level, riskRationale := some risk.rationale }
      else s.clauses key }

inductive ScoreResult where
  | error (message : String)
  | scored (clauseId category riskLevel rationale : String)
  deriving DecidableEq

/-- A call of `score_clause_risk` between its transactions, or with its result. -/
inductive ScoreCall where
  | selected (clauseId category text : String)
  | returned (result : ScoreResult)
  deriving DecidableEq

/-- The first transaction, with the row that the query yields. -/
def selectClause (clauseId : String) : Option (ClauseRow τ) → ScoreCall
  | none => .returned (.error ("clause not found: " ++ clauseId))
  | some row => .selected clauseId row.category row.text

/-- The second transaction; `none` when the call has returned. -/
def ScoreCall.step (s : Stores β τ) : ScoreCall → Option (ScoreCall × Stores β τ)
  | .selected clauseId category text =>
    let risk := riskOf text
    some (.returned (.scored clauseId category risk.level risk.rationale),
      updateRisk s clauseId risk)
  | .returned _ => none

end Risk

end LegalLens.Retrieval
