import LegalLens.Ingestion.Deployment
import LegalLens.Library.LastWins
import LegalLens.Orchestration.TaskCodec

/-!
# The payload of an ingest task

The driver puts a parsed contract into the payload as dicts, the clauses by `model_dump()`, and
the handler takes the fields out of them by their names. Written as JSON and read back, the
payload of every ingest task gives the parsed contract again. So nothing has to be assumed of the
texts in the queues of a deployment.
-/

namespace LegalLens.Ingestion

open JsonText Orchestration

variable {β τ : Type*}

/-- `c.model_dump()`. -/
def ParsedClause.modelDump (c : ParsedClause) : Value :=
  .object
    [("clause_id".toList, .string c.clauseId.toList),
      ("contract_id".toList, .string c.contractId.toList),
      ("category".toList, .string c.category.toList),
      ("text".toList, .string c.text.toList),
      ("answer_start".toList, match c.answerStart with
        | some n => .int n
        | none => .null)]

/-- The dict that the driver makes of a parsed contract. -/
def ParsedContract.payload (parsed : ParsedContract) : Payload :=
  [("contract_id".toList, .string parsed.contractId.toList),
    ("filename".toList, .string parsed.filename.toList),
    ("clauses".toList, .array (parsed.clauses.map ParsedClause.modelDump))]

def textField : Option Value → Option String
  | some (.string text) => some (String.ofList text)
  | _ => none

def startField : Option Value → Option (Option ℤ)
  | some .null => some none
  | some (.number token) => (ofToken token).map some
  | _ => none

def ParsedClause.ofDump : Value → Option ParsedClause
  | .object ms => do
    let clauseId ← textField (LastWins.lookup "clause_id".toList ms)
    let contractId ← textField (LastWins.lookup "contract_id".toList ms)
    let category ← textField (LastWins.lookup "category".toList ms)
    let text ← textField (LastWins.lookup "text".toList ms)
    let answerStart ← startField (LastWins.lookup "answer_start".toList ms)
    return ⟨clauseId, contractId, category, text, answerStart⟩
  | _ => none

def clausesField : Option Value → Option (List ParsedClause)
  | some (.array vs) => vs.mapM ParsedClause.ofDump
  | _ => none

/-- The fields that the handler takes out of the payload. -/
def ParsedContract.ofPayload (payload : Payload) : Option ParsedContract := do
  let contractId ← textField (LastWins.lookup "contract_id".toList payload)
  let filename ← textField (LastWins.lookup "filename".toList payload)
  let clauses ← clausesField (LastWins.lookup "clauses".toList payload)
  return ⟨contractId, filename, clauses⟩

theorem textField_string (text : String) : textField (some (.string text.toList)) = some text :=
  congrArg some String.ofList_toList

theorem startField_value (answerStart : Option ℤ) :
    startField (some (match answerStart with
      | some n => Value.int n
      | none => .null)) = some answerStart := by
  cases answerStart with
  | none => rfl
  | some n => exact congrArg (Option.map some) (ofToken_intToken n)

theorem ParsedClause.ofDump_modelDump (c : ParsedClause) : ofDump c.modelDump = some c := by
  calc ofDump c.modelDump
      = (do
          let clauseId ← textField (some (.string c.clauseId.toList))
          let contractId ← textField (some (.string c.contractId.toList))
          let category ← textField (some (.string c.category.toList))
          let text ← textField (some (.string c.text.toList))
          let answerStart ← startField (some (match c.answerStart with
            | some n => Value.int n
            | none => .null))
          return ⟨clauseId, contractId, category, text, answerStart⟩) := rfl
    _ = some c := by
        simp only [textField_string, startField_value]
        rfl

theorem ParsedContract.ofPayload_payload (parsed : ParsedContract) :
    ofPayload parsed.payload = some parsed := by
  have hclauses : clausesField (some (.array (parsed.clauses.map ParsedClause.modelDump))) =
      some parsed.clauses := by
    rw [clausesField]
    induction parsed.clauses with
    | nil => rfl
    | cons c clauses ih => simp [ParsedClause.ofDump_modelDump, ih]
  calc ofPayload parsed.payload
      = (do
          let contractId ← textField (some (.string parsed.contractId.toList))
          let filename ← textField (some (.string parsed.filename.toList))
          let clauses ←
            clausesField (some (.array (parsed.clauses.map ParsedClause.modelDump)))
          return ⟨contractId, filename, clauses⟩) := rfl
    _ = some parsed := by
        simp only [textField_string, hclauses]
        rfl

/-! ## The texts of ingest tasks -/

def IngestTask.withPayload (task : IngestTask) : Orchestration.Task Payload :=
  ⟨task.kind, task.routingKey, task.payload.payload, task.taskId⟩

def dumpIngest (task : IngestTask) : String := task.withPayload.modelDumpJson

/-- The task that a worker passes to the handler. The limit on digits is left out: positions are
integers that `json.load` has read, under that limit. -/
def loadIngest (limit : ℕ) (raw : String) : Option IngestTask := do
  let fields ← loads nonFinite limit raw.toList
  let task ← Task.validate fields
  let parsed ← ParsedContract.ofPayload task.payload
  return ⟨task.kind, task.routingKey, parsed, task.taskId⟩

/-- Wherever the decoder of the worker returns, the handler takes these fields out of its task. -/
theorem loadIngest_of_modelValidateJson {limit : ℕ} {raw : String}
    {task : Orchestration.Task Payload} (h : Task.modelValidateJson limit raw = some task) :
    loadIngest limit raw = (ParsedContract.ofPayload task.payload).map fun parsed =>
      ⟨task.kind, task.routingKey, parsed, task.taskId⟩ := by
  obtain ⟨fields, hloads, hvalidate⟩ := Option.bind_eq_some_iff.mp h
  rw [loadIngest, (Option.filter_eq_some_iff.mp hloads).1]
  simp only [Option.bind_eq_bind, Option.bind_some, hvalidate]
  cases ParsedContract.ofPayload task.payload <;> rfl

theorem depth_modelDump (c : ParsedClause) : c.modelDump.json.depth = 1 := by
  obtain ⟨clauseId, contractId, category, text, answerStart⟩ := c
  cases answerStart <;> rfl

theorem depth_withPayload_le (task : IngestTask) : task.withPayload.depth ≤ 4 := by
  have hclauses : ∀ clauses : List ParsedClause,
      depthElements (jsonElements (clauses.map ParsedClause.modelDump)) ≤ 1 := by
    intro clauses
    induction clauses with
    | nil => exact Nat.zero_le 1
    | cons c clauses ih => exact max_le (depth_modelDump c).le ih
  have harray := hclauses task.payload.clauses
  simp only [Task.depth, IngestTask.withPayload, ParsedContract.payload, jsonMembers, Value.json,
    depthMembers, Json.depth]
  omega

/-- The handler gets the parsed contract that the driver dispatched. -/
theorem loadIngest_dumpIngest {limit : ℕ} (h : 4 ≤ limit) (task : IngestTask) :
    loadIngest limit (dumpIngest task) = some task := by
  rw [loadIngest, dumpIngest, Task.loads_modelDumpJson ((depth_withPayload_le task).trans h)]
  simp only [Option.bind_eq_bind, Option.bind_some, Task.validate_value]
  simp only [Option.bind_some, IngestTask.withPayload, ParsedContract.ofPayload_payload]
  rfl

/-- A clause with a quote, a line break and a position. -/
theorem loadIngest_dumpIngest_escaped :
    let task := ingestTask
      ⟨"c1", "a.pdf", [⟨"c1-1", "c1", "parties", "\"A\"\n", some 7⟩]⟩
    dumpIngest task = "\x7b\"kind\":\"ingest_contract\",\"routing_key\":\"c1\"," ++
        "\"payload\":\x7b\"contract_id\":\"c1\",\"filename\":\"a.pdf\",\"clauses\":[" ++
        "\x7b\"clause_id\":\"c1-1\",\"contract_id\":\"c1\",\"category\":\"parties\"," ++
        "\"text\":\"\\\"A\\\"\\n\",\"answer_start\":7\x7d]\x7d,\"task_id\":null\x7d" ∧
      loadIngest 200 (dumpIngest task) = some task :=
  ⟨by decide +kernel, loadIngest_dumpIngest (by decide) _⟩

end LegalLens.Ingestion
