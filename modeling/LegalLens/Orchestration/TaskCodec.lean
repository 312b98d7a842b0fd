import LegalLens.Library.JsonDump
import LegalLens.Orchestration.Delivery

/-!
# Tasks as JSON texts

The dispatcher pushes `task.model_dump_json()`, and a worker that popped the text applies
`Task.model_validate_json`; `decode_task` is a second decoder. The payload is any JSON data.
Decoders refuse data that are nested too deep, and integers with too many digits. Other texts
that are pushed are decoded to the tasks that were dispatched, so that no worker is stopped by an
entry of its queue.
-/

namespace LegalLens.Orchestration

open JsonText

/-- The payload: a dict of JSON data. What cannot be serialized raises before the push. -/
abbrev Payload := List (List Char × Value)

namespace Task

/-- The fields in the order of the class. -/
def value (task : Task Payload) : Value :=
  .object
    [("kind".toList, .string task.kind.toList),
      ("routing_key".toList, .string task.routingKey.toList),
      ("payload".toList, .object task.payload),
      ("task_id".toList, match task.taskId with
        | some taskId => .string taskId.toList
        | none => .null)]

def modelDumpJson (task : Task Payload) : String := String.ofList (compact.dumps task.value)

def strField : Option Json → Option String
  | some (.string points) => (textOf points).map String.ofList
  | _ => none

/-- The field `payload`, with its default. -/
def payloadField : Option Json → Option Payload
  | none => some []
  | some (.object ms) => membersOfJson ms
  | some _ => none

/-- The field `task_id`, with its default. -/
def taskIdField : Option Json → Option (Option String)
  | none | some .null => some none
  | field => (strField field).map some

/-- The validation of the fields; other members are ignored. -/
def validate : Json → Option (Task Payload)
  | .object ms => do
    let kind ← strField (lookup (codePoints "kind".toList) ms)
    let routingKey ← strField (lookup (codePoints "routing_key".toList) ms)
    let payload ← payloadField (lookup (codePoints "payload".toList) ms)
    let taskId ← taskIdField (lookup (codePoints "task_id".toList) ms)
    return ⟨kind, routingKey, payload, taskId⟩
  | _ => none

/-- `none` where a `ValidationError` is raised. -/
def modelValidateJson (limit : ℕ) (raw : String) : Option (Task Payload) :=
  (loadsInts IntText.maxStrDigits nonFinite limit raw.toList).bind validate

end Task

inductive Raw where
  | str (text : String)
  | bytes (content : ByteArray)

def Raw.text : Raw → Option String
  | .str text => some text
  | .bytes content => String.fromUTF8? content

/-- `Task(**json.loads(raw))`; `none` where it raises. -/
def TaskDispatcher.decodeTask (limit : ℕ) (raw : Raw) : Option (Task Payload) := do
  let text ← raw.text
  let fields ← loadsInts IntText.maxStrDigits nonFinite limit text.toList
  Task.validate fields

namespace Task

/-- How deep the text of a task is nested. -/
def depth (task : Task Payload) : ℕ := depthMembers (jsonMembers task.payload) + 2

def Readable (limit : ℕ) (task : Task Payload) : Prop :=
  task.depth ≤ limit ∧ withinMembers IntText.maxStrDigits (jsonMembers task.payload) = true

instance (limit : ℕ) (task : Task Payload) : Decidable (task.Readable limit) :=
  inferInstanceAs (Decidable (_ ∧ _))

theorem depth_value (task : Task Payload) : task.value.json.depth = task.depth := by
  obtain ⟨kind, routingKey, payload, taskId⟩ := task
  cases taskId <;> simp [value, Value.json, jsonMembers, Json.depth, depthMembers, depth]

theorem within_value (digits : ℕ) (task : Task Payload) :
    task.value.json.within digits = withinMembers digits (jsonMembers task.payload) := by
  obtain ⟨kind, routingKey, payload, taskId⟩ := task
  cases taskId <;> simp [value, Value.json, jsonMembers, Json.within, withinMembers]

theorem strField_string (text : String) :
    strField (some (.string (codePoints text.toList))) = some text := by
  rw [strField, textOf_codePoints, Option.map_some, String.ofList_toList]

theorem taskIdField_value (taskId : Option String) :
    taskIdField (some (match taskId with
      | some taskId => Value.string taskId.toList
      | none => .null).json) = some taskId := by
  cases taskId with
  | none => rfl
  | some taskId =>
    have hstring := strField_string taskId
    exact congrArg (Option.map some) hstring

theorem validate_value (task : Task Payload) : validate task.value.json = some task := by
  obtain ⟨kind, routingKey, payload, taskId⟩ := task
  have hpayload : payloadField (some (.object (jsonMembers payload))) = some payload :=
    membersOfJson_json payload
  -- The keys differ, so that each field is found where it was written.
  calc validate (value ⟨kind, routingKey, payload, taskId⟩).json
      = (do
          let kind ← strField (some (.string (codePoints kind.toList)))
          let routingKey ← strField (some (.string (codePoints routingKey.toList)))
          let payload ← payloadField (some (.object (jsonMembers payload)))
          let taskId ← taskIdField (some (match taskId with
            | some taskId => Value.string taskId.toList
            | none => .null).json)
          return ⟨kind, routingKey, payload, taskId⟩) := rfl
    _ = some ⟨kind, routingKey, payload, taskId⟩ := by
        rw [strField_string, strField_string, hpayload, taskIdField_value]
        rfl

variable {limit : ℕ} {task : Task Payload}

theorem loads_modelDumpJson (h : task.depth ≤ limit) :
    loads nonFinite limit (modelDumpJson task).toList = some task.value.json := by
  rw [modelDumpJson, String.toList_ofList]
  exact compact.loads_dumps nonFinite (task.depth_value.trans_le h)

theorem modelValidateJson_modelDumpJson (h : task.Readable limit) :
    modelValidateJson limit (modelDumpJson task) = some task := by
  rw [modelValidateJson,
    loadsInts_of_loads (loads_modelDumpJson h.1) ((task.within_value _).trans h.2)]
  exact task.validate_value

end Task

theorem Raw.text_toByteArray (text : String) : (Raw.bytes text.toByteArray).text = some text :=
  dif_pos text.isValidUTF8

theorem TaskDispatcher.decodeTask_modelDumpJson {limit : ℕ} {task : Task Payload}
    (h : task.Readable limit) {raw : Raw} (hraw : raw.text = some task.modelDumpJson) :
    decodeTask limit raw = some task := by
  rw [decodeTask, hraw]
  exact Task.modelValidateJson_modelDumpJson h

namespace Cluster

variable {hash : String → ℕ} {limit : ℕ} {acts : List (ClusterAction Payload)}

theorem roundTrips_json (hreadable : ∀ a ∈ acts, ∀ task ∈ a.tasks, task.Readable limit) :
    RoundTrips Task.modelDumpJson (Task.modelValidateJson limit) acts :=
  fun a ha task htask => Task.modelValidateJson_modelDumpJson (hreadable a ha task htask)

/-- Every text that was pushed, in flight, queued or in the hands of a worker, is decoded to the
task that was dispatched, and no worker leaves its loop on one. -/
theorem json_delivered (hreadable : ∀ a ∈ acts, ∀ task ∈ a.tasks, task.Readable limit)
    {s : Cluster Payload String}
    (hrun : Runs.run (step hash Task.modelDumpJson (Task.modelValidateJson limit)) start acts =
      some s) :
    Delivered hash Task.modelDumpJson (Task.modelValidateJson limit) acts s ∧
      (∀ entry ∈ s.sent, Task.modelValidateJson limit entry.wire = some entry.push.task ∧
        TaskDispatcher.decodeTask limit (.bytes entry.wire.toByteArray) = some entry.push.task) ∧
      ∀ w entry, (s.workers w).phase = .popped entry →
        ((s.workers w).step (Task.modelValidateJson limit) .decode).map WorkerState.phase =
          some (.handling entry entry.push.task) := by
  have hcodec := roundTrips_json hreadable
  have hs := inv_run hrun
  have htask : ∀ entry ∈ s.sent, entry.push.task.Readable limit := by
    intro entry hentry
    obtain ⟨pre, a, post, t, rfl, -, htask, -⟩ := pushes_of_mem_sent hrun hentry
    exact hreadable a (by simp) _ (List.mem_of_getElem? htask)
  have hload : ∀ entry ∈ s.sent,
      Task.modelValidateJson limit entry.wire = some entry.push.task := by
    intro entry hentry
    rw [hs.wire entry hentry]
    exact Task.modelValidateJson_modelDumpJson (htask entry hentry)
  refine ⟨delivered_of_run hcodec hrun, fun entry hentry => ⟨hload entry hentry, ?_⟩,
    fun w entry hphase => ?_⟩
  · rw [hs.wire entry hentry]
    exact TaskDispatcher.decodeTask_modelDumpJson (htask entry hentry) (Raw.text_toByteArray _)
  · have htaken : entry ∈ (s.workers w).taken := by
      have hconsistent := hs.consistent w
      simp only [WorkerState.Consistent, hphase] at hconsistent
      rw [hconsistent.1]
      exact List.mem_append_right _ List.mem_cons_self
    simp only [WorkerState.step, hphase, hload entry (hs.mem_sent_of_mem_taken htaken).1,
      Option.map_some]

/-- A task whose text needs escapes is popped and decoded. -/
theorem json_delivered_escaped :
    let task : Task Payload :=
      ⟨"ingest_contract", "c\"1", [("clauses".toList, .array [.int (-12), .string ['\n', 'é']])],
        none⟩
    let acts : List (ClusterAction Payload) :=
      [.refresh 0 ["worker:hb:a"], .worker "a" .start, .dispatch 0 task, .worker "a" .poll,
        .serve 0, .pop "a"]
    ∃ s, Runs.run (step (fun _ => 0) Task.modelDumpJson (Task.modelValidateJson 200)) start acts =
        some s ∧
      (s.workers "a").phase.inHand.map (fun entry => entry.wire) = some
        ("\x7b\"kind\":\"ingest_contract\",\"routing_key\":\"c\\\"1\"," ++
          "\"payload\":\x7b\"clauses\":[-12,\"\\né\"]\x7d,\"task_id\":null\x7d") ∧
      ∀ entry, (s.workers "a").phase = .popped entry →
        ((s.workers "a").step (Task.modelValidateJson 200) .decode).map WorkerState.phase =
          some (.handling entry entry.push.task) := by
  intro task acts
  have hreadable : ∀ a ∈ acts, ∀ task ∈ a.tasks, task.Readable 200 := by
    decide
  have hrun : ((Runs.run (step (fun _ => 0) Task.modelDumpJson (Task.modelValidateJson 200))
      start acts).map fun s => (s.workers "a").phase.inHand.map fun entry => entry.wire) =
      some (some ("\x7b\"kind\":\"ingest_contract\",\"routing_key\":\"c\\\"1\"," ++
        "\"payload\":\x7b\"clauses\":[-12,\"\\né\"]\x7d,\"task_id\":null\x7d")) := by
    decide +kernel
  obtain ⟨s, hs, hwire⟩ := Option.map_eq_some_iff.mp hrun
  exact ⟨s, hs, hwire, (json_delivered hreadable hs).2.2 "a"⟩

end Cluster

end LegalLens.Orchestration
