import LegalLens.Coordination.WorkerRegistry

/-!
# The task dispatcher

A dispatch asks the registry's ring for the owner of the routing key and appends the
serialized task to the owner's queue. A batch dispatch routes every task first, buffering
the pushes on a pipeline, and executes the pipeline only when all tasks found an owner.
Serialization is a parameter, and so is the type of task payloads.
-/

namespace LegalLens.Orchestration

open Coordination Workers

structure Task (π : Type*) where
  kind : String
  routingKey : String
  payload : π
  taskId : Option String
  deriving DecidableEq, Repr

inductive DispatchError where
  | noWorkersAvailable (message : String)
  | lookup (error : LookupError)
  deriving DecidableEq, Repr

def workerQueueKey (workerId : String) : String := "queue:" ++ workerId

theorem workerQueueKey_injective : Function.Injective workerQueueKey := by
  intro v w h
  have hl := congrArg String.toList h
  simpa [workerQueueKey, String.toList_inj] using hl

/-- The lists stored in Redis, by key. -/
abbrev Queues (ε : Type*) := String → List ε

def Queues.rpush {ε : Type*} (queues : Queues ε) (key : String) (entry : ε) : Queues ε :=
  Function.update queues key (queues key ++ [entry])

def noOwnerMessage {π : Type*} (task : Task π) : String :=
  "no workers in ring; cannot route task kind=" ++ task.kind ++ " key=" ++ task.routingKey

namespace TaskDispatcher

variable {π ε : Type*} (hash : String → ℕ) (dump : Task π → ε) (registry : WorkerRegistry)

/-- The owner as the guard `if not worker_id` sees it: an empty id counts as no worker. -/
def owner (routingKey : String) : Except LookupError (Option String) :=
  match registry.ring.getWorker hash routingKey with
  | .error e => .error e
  | .ok none => .ok none
  | .ok (some w) => .ok (if w = "" then none else some w)

def dispatch (task : Task π) (queues : Queues ε) : Except DispatchError (String × Queues ε) :=
  match owner hash registry task.routingKey with
  | .error e => .error (.lookup e)
  | .ok none => .error (.noWorkersAvailable (noOwnerMessage task))
  | .ok (some workerId) => .ok (workerId, queues.rpush (workerQueueKey workerId) (dump task))

/-- The routing loop of a batch: tasks grouped by worker, and the buffered pushes. -/
def routeMany : List (Task π) → Dict String (List (Task π)) → List (String × Task π) →
    Except DispatchError (Dict String (List (Task π)) × List (String × Task π))
  | [], byWorker, pipe => .ok (byWorker, pipe)
  | task :: tasks, byWorker, pipe =>
    match owner hash registry task.routingKey with
    | .error e => .error (.lookup e)
    | .ok none => .error (.noWorkersAvailable "ring is empty")
    | .ok (some wid) =>
      routeMany tasks (byWorker.set wid ((byWorker.get? wid).getD [] ++ [task]))
        (pipe ++ [(wid, task)])

def execute (pipe : List (String × Task π)) (queues : Queues ε) : Queues ε :=
  pipe.foldl (fun q c => q.rpush (workerQueueKey c.1) (dump c.2)) queues

def dispatchMany (tasks : List (Task π)) (queues : Queues ε) :
    Except DispatchError (Dict String (List (Task π)) × Queues ε) :=
  match routeMany hash registry tasks Dict.empty [] with
  | .error e => .error e
  | .ok (byWorker, pipe) => .ok (byWorker, execute dump pipe queues)

theorem execute_concat (pipe : List (String × Task π)) (c : String × Task π)
    (queues : Queues ε) : execute dump (pipe ++ [c]) queues =
      (execute dump pipe queues).rpush (workerQueueKey c.1) (dump c.2) :=
  List.foldl_concat ..

theorem execute_apply (pipe : List (String × Task π)) (queues : Queues ε) (w : String) :
    execute dump pipe queues (workerQueueKey w) = queues (workerQueueKey w) ++
      (pipe.filter fun c => c.1 = w).map fun c => dump c.2 := by
  induction pipe using List.reverseRecOn with
  | nil => simp [execute]
  | append_singleton pipe c ih =>
    rw [execute_concat, Queues.rpush]
    by_cases hw : c.1 = w
    · simp [hw, ih]
    · have hkey : workerQueueKey w ≠ workerQueueKey c.1 :=
        fun h => hw (workerQueueKey_injective h).symm
      simp [hw, hkey, ih]

theorem execute_of_ne {pipe : List (String × Task π)} {key : String}
    (h : ∀ c ∈ pipe, key ≠ workerQueueKey c.1) (queues : Queues ε) :
    execute dump pipe queues key = queues key := by
  induction pipe using List.reverseRecOn with
  | nil => rfl
  | append_singleton pipe c ih =>
    have hne : key ≠ workerQueueKey c.1 := h c (by simp)
    rw [execute_concat, Queues.rpush, Function.update_of_ne hne,
      ih fun d hd => h d (List.mem_append_left _ hd)]

variable {hash registry}

/-- On an indexed ring a lookup never raises, so neither does the choice of an owner. -/
theorem owner_ok_of_indexed (hash : String → ℕ) (hr : registry.ring.Indexed) (key : String) :
    ∃ o, owner hash registry key = .ok o := by
  unfold owner
  rcases hr.getWorker_cases hash key with ⟨-, h⟩ | ⟨p, w, -, -, h⟩ <;> simp [h]

theorem dispatch_cases (hr : registry.ring.Indexed) (task : Task π) :
    (∃ wid, ∀ queues, dispatch hash dump registry task queues =
        .ok (wid, queues.rpush (workerQueueKey wid) (dump task))) ∨
      ∀ queues, dispatch hash dump registry task queues =
        .error (.noWorkersAvailable (noOwnerMessage task)) := by
  obtain ⟨o, ho⟩ := owner_ok_of_indexed hash hr task.routingKey
  cases o with
  | none => exact Or.inr fun queues => by simp [dispatch, ho]
  | some wid => exact Or.inl ⟨wid, fun queues => by simp [dispatch, ho]⟩

theorem routeMany_eq_ok {tasks : List (Task π)} {byWorker byWorker' : Dict String (List (Task π))}
    {pipe pipe' : List (String × Task π)}
    (h : routeMany hash registry tasks byWorker pipe = .ok (byWorker', pipe')) :
    ∃ routed, pipe' = pipe ++ routed ∧ routed.map Prod.snd = tasks ∧
      ∀ c ∈ routed, owner hash registry c.2.routingKey = .ok (some c.1) := by
  induction tasks generalizing byWorker pipe with
  | nil =>
    cases h
    exact ⟨[], by simp⟩
  | cons task tasks ih =>
    unfold routeMany at h
    split at h
    · cases h
    · cases h
    next wid hwid =>
      obtain ⟨routed, hpipe, htasks, howner⟩ := ih h
      refine ⟨(wid, task) :: routed, ?_, ?_, ?_⟩
      · rw [hpipe, List.append_assoc, List.singleton_append]
      · rw [List.map_cons, htasks]
      · intro c hc
        rcases List.mem_cons.mp hc with rfl | hc
        · exact hwid
        · exact howner c hc

/-- Two registries that refreshed on scans of one live set, in any order and with any
repetitions, dispatch every task to the same queue, or both find no worker. Nothing is
assumed of the hash or of what the two rings held before. -/
theorem refreshed_dispatchers_agree (hash : String → ℕ) (dump : Task π → ε)
    (live : Finset String) (ops ops' : List ConsistentHashRing.Op) (scan scan' : List String)
    (h : WorkerRegistry.Scans live scan) (h' : WorkerRegistry.Scans live scan')
    (task : Task π) (queues queues' : Queues ε) :
    let registry := ((WorkerRegistry.afterOps hash ops).refreshRing hash scan).1
    let registry' := ((WorkerRegistry.afterOps hash ops').refreshRing hash scan').1
    (∃ wid,
        dispatch hash dump registry task queues =
          .ok (wid, queues.rpush (workerQueueKey wid) (dump task)) ∧
        dispatch hash dump registry' task queues' =
          .ok (wid, queues'.rpush (workerQueueKey wid) (dump task))) ∨
      (dispatch hash dump registry task queues =
          .error (.noWorkersAvailable (noOwnerMessage task)) ∧
        dispatch hash dump registry' task queues' =
          .error (.noWorkersAvailable (noOwnerMessage task))) := by
  intro registry registry'
  have hsame : registry = registry' :=
    WorkerRegistry.refreshRing_eq_of_scans hash (by simp [WorkerRegistry.afterOps]) h h'
  have hindexed : registry.ring.Indexed := WorkerRegistry.indexed_refreshRing hash _ scan
  rw [← hsame]
  rcases dispatch_cases dump hindexed task with ⟨wid, hwid⟩ | hnone
  · exact Or.inl ⟨wid, hwid queues, hwid queues'⟩
  · exact Or.inr ⟨hnone queues, hnone queues'⟩

/-- Two replicas with different pasts, a constant hash and two enumerations of two workers. -/
theorem refreshed_dispatchers_agree_colliding :
    dispatch (fun _ => 0) Task.kind ((WorkerRegistry.afterOps (fun _ => 0) []).refreshRing
        (fun _ => 0) ["worker:hb:w1", "worker:hb:w2"]).1
        (⟨"ingest_contract", "c1", (), none⟩ : Task Unit) (fun _ => []) =
      dispatch (fun _ => 0) Task.kind
        ((WorkerRegistry.afterOps (fun _ => 0) [.add "w3"]).refreshRing
          (fun _ => 0) ["worker:hb:w2", "worker:hb:w1", "worker:hb:w2"]).1
        (⟨"ingest_contract", "c1", (), none⟩ : Task Unit) (fun _ => []) := by
  have h := refreshed_dispatchers_agree (fun _ => 0) Task.kind {"w1", "w2"} [] [.add "w3"]
    ["worker:hb:w1", "worker:hb:w2"] ["worker:hb:w2", "worker:hb:w1", "worker:hb:w2"]
    (by intro key; simp [hbKey, hbKeyPrefix])
    (by intro key; simp [hbKey, hbKeyPrefix]; tauto)
    (⟨"ingest_contract", "c1", (), none⟩ : Task Unit) (fun _ => []) (fun _ => [])
  rcases h with ⟨wid, h, h'⟩ | ⟨h, h'⟩
  · exact h.trans h'.symm
  · exact h.trans h'.symm

end TaskDispatcher

end LegalLens.Orchestration
