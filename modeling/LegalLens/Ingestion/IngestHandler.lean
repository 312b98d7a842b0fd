import LegalLens.Ingestion.Parser
import LegalLens.Library.KeyedWrites
import LegalLens.Library.Runs
import LegalLens.Orchestration.Dispatcher

/-!
# The ingest handler

`handle_ingest_contract` writes to two tables and to the vector store, in three separate
transactions. Its executions are taken step by step here, so that those of several workers
interleave and any of them may stop for good after any step. The embedder is a function of
the text, and the clock is read from the action.
-/

namespace LegalLens.Ingestion

/-- An `ingest_contract` task; its payload has the fields of a parsed contract. -/
abbrev IngestTask := Orchestration.Task ParsedContract

def ingestTask (parsed : ParsedContract) : IngestTask :=
  ⟨"ingest_contract", parsed.contractId, parsed, none⟩

structure ContractRow (τ : Type*) where
  filename : String
  ingestedAt : τ

structure ClauseRow (τ : Type*) where
  category : String
  text : String
  riskLevel : Option String
  riskRationale : Option String
  vectorId : String
  embeddedAt : τ

structure VectorMetadata where
  contractId : String
  category : String
  deriving DecidableEq

/-- The two tables by primary key, and the vector store. -/
structure Stores (β τ : Type*) where
  contracts : String → Option (ContractRow τ)
  clauses : String × String → Option (ClauseRow τ)
  vectors : String → Option (List β × VectorMetadata)

variable {β τ : Type*}

namespace Stores

def empty : Stores β τ := ⟨fun _ => none, fun _ => none, fun _ => none⟩

/-- `INSERT INTO contracts ... ON CONFLICT (contract_id) DO UPDATE`. -/
def upsertContract (s : Stores β τ) (contractId filename : String) (now : τ) : Stores β τ :=
  { s with contracts := Function.update s.contracts contractId (some ⟨filename, now⟩) }

/-- `INSERT INTO clauses ... ON CONFLICT (contract_id, clause_id) DO UPDATE`: the category and
the risk columns of a row that exists are kept. -/
def upsertClause (contractId : String) (now : τ) (s : Stores β τ) (c : ParsedClause) :
    Stores β τ :=
  let row : ClauseRow τ :=
    match s.clauses (contractId, c.clauseId) with
    | none => ⟨c.category, c.text, none, none, c.clauseId, now⟩
    | some row => { row with text := c.text, vectorId := c.clauseId, embeddedAt := now }
  { s with clauses := Function.update s.clauses (contractId, c.clauseId) (some row) }

/-- One transaction for all clauses of a task. -/
def upsertClauses (s : Stores β τ) (contractId : String) (clauses : List ParsedClause) (now : τ) :
    Stores β τ :=
  clauses.foldl (upsertClause contractId now) s

/-- The records of the vector upsert. -/
def vectorRecords (contractId : String) (clauses : List ParsedClause) (vectors : List (List β)) :
    List (String × List β × VectorMetadata) :=
  List.zipWith (fun c v => (c.clauseId, v, ⟨contractId, c.category⟩)) clauses vectors

/-- One vector for every text: the zip drops nothing. -/
theorem vectorRecords_embed (embed : String → List β) (cid : String)
    (clauses : List ParsedClause) :
    vectorRecords cid clauses (clauses.map fun c => embed c.text) =
      clauses.map fun c => (c.clauseId, embed c.text, ⟨cid, c.category⟩) := by
  unfold vectorRecords
  rw [List.zipWith_map_right, List.zipWith_self]

def upsertVectors (s : Stores β τ) (records : List (String × List β × VectorMetadata)) :
    Stores β τ :=
  { s with vectors := KeyedWrites.writeAll s.vectors records }

end Stores

/-- The next step of an execution; the vectors are those of the embedding step. -/
inductive Stage (β : Type*) where
  | contract
  | embed
  | vectors (embedded : List (List β))
  | rows
  | done

structure Execution (β : Type*) where
  task : IngestTask
  stage : Stage β

/-- One step of `handle_ingest_contract`; `none` when it has returned. -/
def Execution.step (embed : String → List β) (now : τ) (ex : Execution β) (s : Stores β τ) :
    Option (Execution β × Stores β τ) :=
  let payload := ex.task.payload
  match ex.stage with
  | .contract =>
    let next := if payload.clauses = [] then .done else .embed
    some ({ ex with stage := next }, s.upsertContract payload.contractId payload.filename now)
  | .embed => some ({ ex with stage := .vectors (payload.clauses.map fun c => embed c.text) }, s)
  | .vectors embedded =>
    some ({ ex with stage := .rows },
      s.upsertVectors (Stores.vectorRecords payload.contractId payload.clauses embedded))
  | .rows =>
    some ({ ex with stage := .done },
      s.upsertClauses payload.contractId payload.clauses now)
  | .done => none

def Execution.returned (ex : Execution β) : Option IngestTask :=
  match ex.stage with
  | .done => some ex.task
  | _ => none

theorem Execution.eq_of_returned {ex : Execution β} {task : IngestTask}
    (h : ex.returned = some task) : ex = ⟨task, .done⟩ := by
  obtain ⟨task', stage⟩ := ex
  cases stage with
  | done =>
    cases h
    rfl
  | _ => cases h

structure Pipeline (β τ : Type*) where
  stores : Stores β τ
  executions : ℕ → Option (Execution β)

namespace Pipeline

inductive Action (τ : Type*) where
  /-- A worker begins an execution of a task. -/
  | begin (e : ℕ) (task : IngestTask)
  /-- An execution takes its next step, at a time. -/
  | step (e : ℕ) (now : τ)

def start : Pipeline β τ := ⟨.empty, fun _ => none⟩

/-- Executions of tasks of `tasks`, interleaved. -/
def step (embed : String → List β) (tasks : List IngestTask) (s : Pipeline β τ) :
    Action τ → Option (Pipeline β τ)
  | .begin e task =>
    if task ∈ tasks ∧ (s.executions e).isNone then
      some { s with executions := Function.update s.executions e (some ⟨task, .contract⟩) }
    else none
  | .step e now =>
    match s.executions e with
    | none => none
    | some ex =>
      (ex.step embed now s.stores).map fun r =>
        ⟨r.2, Function.update s.executions e (some r.1)⟩

section Step

variable {embed : String → List β} {tasks : List IngestTask} {s u : Pipeline β τ} {e : ℕ}

theorem eq_of_begin {task : IngestTask} (h : s.step embed tasks (.begin e task) = some u) :
    task ∈ tasks ∧ s.executions e = none ∧
      u = ⟨s.stores, Function.update s.executions e (some ⟨task, .contract⟩)⟩ := by
  simp only [step] at h
  split_ifs at h with hok
  exact ⟨hok.1, Option.isNone_iff_eq_none.mp hok.2, (Option.some.inj h).symm⟩

theorem eq_of_step {now : τ} (h : s.step embed tasks (.step e now) = some u) :
    ∃ ex ex' stores', s.executions e = some ex ∧ ex.step embed now s.stores = some (ex', stores') ∧
      u = ⟨stores', Function.update s.executions e (some ex')⟩ := by
  simp only [step] at h
  split at h
  · cases h
  next ex hex =>
    obtain ⟨⟨ex', stores'⟩, hstep, rfl⟩ := Option.map_eq_some_iff.mp h
    exact ⟨ex, ex', stores', hex, hstep, rfl⟩

end Step

def Completed (tasks : List IngestTask) (s : Pipeline β τ) : Prop :=
  ∀ task ∈ tasks, ∃ e, s.executions e = some ⟨task, .done⟩

def returned (s : Pipeline β τ) (e : ℕ) : Option IngestTask :=
  (s.executions e).bind Execution.returned

theorem completed_of_returned {tasks : List IngestTask} {s : Pipeline β τ} {es : List ℕ}
    (h : es.map s.returned = tasks.map some) : s.Completed tasks := by
  intro task htask
  have hmem : some task ∈ es.map s.returned := h ▸ List.mem_map_of_mem htask
  obtain ⟨e, -, he⟩ := List.mem_map.mp hmem
  obtain ⟨ex, hex, hreturned⟩ := Option.bind_eq_some_iff.mp he
  exact ⟨e, hex.trans (congrArg some (Execution.eq_of_returned hreturned))⟩

end Pipeline

end LegalLens.Ingestion
