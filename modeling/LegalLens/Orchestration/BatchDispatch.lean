import LegalLens.Library.Grouping
import LegalLens.Orchestration.Dispatcher

/-!
# A batch against its tasks one by one

`dispatch_many` routes all tasks before it executes its pipeline, and `dispatch` pushes at
once. Here the batch runs on the state of the client, the queues and the commands buffered
so far, so that what an exception leaves behind can be seen. Both ways of dispatching choose
the same owners, and so they succeed together and leave the same queues.
-/

namespace LegalLens.Orchestration.TaskDispatcher

open Coordination Workers

variable {π ε : Type*} (hash : String → ℕ) (dump : Task π → ε) (registry : WorkerRegistry)

/-- The lists stored in Redis, and the pushes that wait on a pipeline. -/
structure Pipelined (ε : Type*) where
  queues : Queues ε
  commands : List (String × ε)

def Pipelined.rpush (s : Pipelined ε) (key : String) (entry : ε) : Pipelined ε :=
  { s with commands := s.commands ++ [(key, entry)] }

def Pipelined.execute (s : Pipelined ε) : Pipelined ε :=
  ⟨s.commands.foldl (fun queues c => queues.rpush c.1 c.2) s.queues, []⟩

/-- The loop of a batch; a raise returns the client as it is. -/
def batchLoop : List (Task π) → Dict String (List (Task π)) → Pipelined ε →
    Except DispatchError (Dict String (List (Task π))) × Pipelined ε
  | [], byWorker, s => (.ok byWorker, s)
  | task :: tasks, byWorker, s =>
    match owner hash registry task.routingKey with
    | .error e => (.error (.lookup e), s)
    | .ok none => (.error (.noWorkersAvailable "ring is empty"), s)
    | .ok (some wid) =>
      batchLoop tasks (Grouping.append byWorker wid task)
        (s.rpush (workerQueueKey wid) (dump task))

/-- A call of `dispatch_many`: what it returns or raises, and the queues afterwards. -/
def dispatchBatch (tasks : List (Task π)) (queues : Queues ε) :
    Except DispatchError (Dict String (List (Task π))) × Queues ε :=
  match batchLoop hash dump registry tasks Dict.empty ⟨queues, []⟩ with
  | (.error e, s) => (.error e, s.queues)
  | (.ok byWorker, s) => (.ok byWorker, s.execute.queues)

/-- A call of `dispatch` for every task in turn, up to the first that raises. -/
def dispatchEach : List (Task π) → Queues ε → Except DispatchError (List String) × Queues ε
  | [], queues => (.ok [], queues)
  | task :: tasks, queues =>
    match dispatch hash dump registry task queues with
    | .error e => (.error e, queues)
    | .ok (wid, queues) =>
      match dispatchEach tasks queues with
      | (.error e, queues) => (.error e, queues)
      | (.ok wids, queues) => (.ok (wid :: wids), queues)

def routed : List (Task π) → Option (List (String × Task π))
  | [] => some []
  | task :: tasks =>
    match owner hash registry task.routingKey with
    | .ok (some wid) => (routed tasks).map ((wid, task) :: ·)
    | _ => none

variable {hash registry}

theorem map_snd_routed {tasks : List (Task π)} {pairs : List (String × Task π)}
    (h : routed hash registry tasks = some pairs) : pairs.map Prod.snd = tasks := by
  induction tasks generalizing pairs with
  | nil =>
    cases h
    rfl
  | cons task tasks ih =>
    unfold routed at h
    split at h
    · obtain ⟨rest, hrest, rfl⟩ := Option.map_eq_some_iff.mp h
      rw [List.map_cons, ih hrest]
    · cases h

theorem dispatchEach_of_routed {tasks : List (Task π)} {pairs : List (String × Task π)}
    (h : routed hash registry tasks = some pairs) (queues : Queues ε) :
    dispatchEach hash dump registry tasks queues =
      (.ok (pairs.map Prod.fst), execute dump pairs queues) := by
  induction tasks generalizing pairs queues with
  | nil =>
    cases h
    rfl
  | cons task tasks ih =>
    unfold routed at h
    split at h
    next wid howner =>
      obtain ⟨rest, hrest, rfl⟩ := Option.map_eq_some_iff.mp h
      rw [dispatchEach, dispatch, howner]
      dsimp only
      rw [ih hrest]
      rfl
    · cases h

theorem dispatchEach_of_not_routed {tasks : List (Task π)}
    (h : routed hash registry tasks = none) (queues : Queues ε) :
    ∃ e queues', dispatchEach hash dump registry tasks queues = (.error e, queues') := by
  induction tasks generalizing queues with
  | nil => cases h
  | cons task tasks ih =>
    rw [dispatchEach, dispatch]
    unfold routed at h
    cases howner : owner hash registry task.routingKey with
    | error e => exact ⟨_, _, rfl⟩
    | ok o =>
      cases o with
      | none => exact ⟨_, _, rfl⟩
      | some wid =>
        rw [howner] at h
        obtain ⟨e, queues', hrest⟩ :=
          ih (Option.map_eq_none_iff.mp h) (queues.rpush (workerQueueKey wid) (dump task))
        refine ⟨e, queues', ?_⟩
        dsimp only
        rw [hrest]

theorem batchLoop_of_routed {tasks : List (Task π)} {pairs : List (String × Task π)}
    (h : routed hash registry tasks = some pairs) (byWorker : Dict String (List (Task π)))
    (s : Pipelined ε) :
    batchLoop hash dump registry tasks byWorker s =
      (.ok (pairs.foldl (fun groups pair => Grouping.append groups pair.1 pair.2) byWorker),
        ⟨s.queues, s.commands ++ pairs.map fun c => (workerQueueKey c.1, dump c.2)⟩) := by
  induction tasks generalizing pairs byWorker s with
  | nil =>
    cases h
    simp [batchLoop]
  | cons task tasks ih =>
    unfold routed at h
    split at h
    next wid howner =>
      obtain ⟨rest, hrest, rfl⟩ := Option.map_eq_some_iff.mp h
      rw [batchLoop, howner]
      dsimp only
      rw [ih hrest]
      simp [Pipelined.rpush]
    · cases h

/-- A raise leaves the queues alone, whatever has been buffered. -/
theorem batchLoop_of_not_routed {tasks : List (Task π)}
    (h : routed hash registry tasks = none) (byWorker : Dict String (List (Task π)))
    (s : Pipelined ε) :
    ∃ e s', batchLoop hash dump registry tasks byWorker s = (.error e, s') ∧
      s'.queues = s.queues := by
  induction tasks generalizing byWorker s with
  | nil => cases h
  | cons task tasks ih =>
    rw [batchLoop]
    unfold routed at h
    cases howner : owner hash registry task.routingKey with
    | error e => exact ⟨_, _, rfl, rfl⟩
    | ok o =>
      cases o with
      | none => exact ⟨_, _, rfl, rfl⟩
      | some wid =>
        rw [howner] at h
        exact ih (Option.map_eq_none_iff.mp h) _ (s.rpush (workerQueueKey wid) (dump task))

theorem execute_buffered (pairs : List (String × Task π)) (queues : Queues ε) :
    (Pipelined.execute ⟨queues, pairs.map fun c => (workerQueueKey c.1, dump c.2)⟩).queues =
      execute dump pairs queues := by
  simp only [Pipelined.execute, execute, List.foldl_map]

theorem dispatchBatch_of_routed {tasks : List (Task π)} {pairs : List (String × Task π)}
    (h : routed hash registry tasks = some pairs) (queues : Queues ε) :
    dispatchBatch hash dump registry tasks queues =
      (.ok (Grouping.group pairs), execute dump pairs queues) := by
  unfold dispatchBatch
  rw [batchLoop_of_routed dump h]
  dsimp only
  rw [List.nil_append, execute_buffered]
  rfl

theorem dispatchBatch_of_not_routed {tasks : List (Task π)}
    (h : routed hash registry tasks = none) (queues : Queues ε) :
    ∃ e, dispatchBatch hash dump registry tasks queues = (.error e, queues) := by
  obtain ⟨e, s, hloop, hqueues⟩ := batchLoop_of_not_routed dump h Dict.empty ⟨queues, []⟩
  refine ⟨e, ?_⟩
  unfold dispatchBatch
  rw [hloop]
  dsimp only
  rw [hqueues]

theorem batchLoop_eq (tasks : List (Task π)) (byWorker : Dict String (List (Task π)))
    (pipe : List (String × Task π)) (queues : Queues ε) :
    match routeMany hash registry tasks byWorker pipe with
    | .error e => (batchLoop hash dump registry tasks byWorker
        ⟨queues, pipe.map fun c => (workerQueueKey c.1, dump c.2)⟩).1 = .error e
    | .ok (byWorker', pipe') => batchLoop hash dump registry tasks byWorker
        ⟨queues, pipe.map fun c => (workerQueueKey c.1, dump c.2)⟩ =
          (.ok byWorker', ⟨queues, pipe'.map fun c => (workerQueueKey c.1, dump c.2)⟩) := by
  induction tasks generalizing byWorker pipe with
  | nil => rfl
  | cons task tasks ih =>
    rw [routeMany, batchLoop]
    cases owner hash registry task.routingKey with
    | error e => rfl
    | ok o =>
      cases o with
      | none => rfl
      | some wid =>
        have hrest := ih (Grouping.append byWorker wid task) (pipe ++ [(wid, task)])
        rw [List.map_append] at hrest
        exact hrest

/-- What the dispatcher's model keeps of a call. -/
theorem dispatchMany_eq (tasks : List (Task π)) (queues : Queues ε) :
    dispatchMany hash dump registry tasks queues =
      match dispatchBatch hash dump registry tasks queues with
      | (.ok byWorker, queues) => .ok (byWorker, queues)
      | (.error e, _) => .error e := by
  have hloop := @batchLoop_eq _ _ hash dump registry tasks Dict.empty [] queues
  rw [List.map_nil] at hloop
  unfold dispatchMany dispatchBatch
  cases hroute : routeMany hash registry tasks Dict.empty [] with
  | error e =>
    rw [hroute] at hloop
    generalize batchLoop hash dump registry tasks Dict.empty ⟨queues, []⟩ = outcome at hloop
    obtain ⟨result, s⟩ := outcome
    cases hloop
    rfl
  | ok routes =>
    obtain ⟨byWorker, pipe⟩ := routes
    rw [hroute] at hloop
    dsimp only at hloop ⊢
    rw [hloop]
    dsimp only
    rw [execute_buffered]

/-- On any ring and for any queues, a batch succeeds exactly if its tasks dispatched one by
one do. Then both leave the same queues, and the batch returns every owner with its tasks in
order. If it raises, the queues are as before. -/
theorem dispatchBatch_agrees (hash : String → ℕ) (dump : Task π → ε) (registry : WorkerRegistry)
    (tasks : List (Task π)) (queues : Queues ε) :
    let batch := dispatchBatch hash dump registry tasks queues
    let each := dispatchEach hash dump registry tasks queues
    ((∃ byWorker, batch.1 = .ok byWorker) ↔ ∃ wids, each.1 = .ok wids) ∧
      (∀ byWorker wids, batch.1 = .ok byWorker → each.1 = .ok wids →
        batch.2 = each.2 ∧ wids.length = tasks.length ∧
        (∀ wid, byWorker.get? wid =
          if wid ∈ wids then some (Grouping.members wid (wids.zip tasks)) else none) ∧
        byWorker.values.flatten.Perm tasks) ∧
      ∀ e, batch.1 = .error e → batch.2 = queues := by
  intro batch each
  cases h : routed hash registry tasks with
  | none =>
    obtain ⟨e, hbatch⟩ : ∃ e, batch = (.error e, queues) :=
      dispatchBatch_of_not_routed dump h queues
    obtain ⟨e', queues', heach⟩ : ∃ e' queues', each = (.error e', queues') :=
      dispatchEach_of_not_routed dump h queues
    rw [hbatch, heach]
    refine ⟨?_, ?_, fun _ _ => rfl⟩
    · constructor <;> rintro ⟨_, hok⟩ <;> cases hok
    · intro byWorker wids hok
      cases hok
  | some pairs =>
    have hbatch : batch = (.ok (Grouping.group pairs), execute dump pairs queues) :=
      dispatchBatch_of_routed dump h queues
    have heach : each = (.ok (pairs.map Prod.fst), execute dump pairs queues) :=
      dispatchEach_of_routed dump h queues
    have htasks := map_snd_routed h
    rw [hbatch, heach]
    refine ⟨⟨fun _ => ⟨_, rfl⟩, fun _ => ⟨_, rfl⟩⟩, ?_, ?_⟩
    · intro byWorker wids hbyWorker hwids
      cases hbyWorker
      cases hwids
      refine ⟨rfl, by rw [← htasks, List.length_map, List.length_map], ?_, ?_⟩
      · intro wid
        rw [← List.zip_of_prod rfl htasks, Grouping.get?_group]
        by_cases hwid : wid ∈ pairs.map Prod.fst
        · rw [if_pos hwid, if_neg (Grouping.members_ne_nil_iff.mpr hwid)]
        · rw [if_neg hwid, if_pos (not_not.mp (mt Grouping.members_ne_nil_iff.mp hwid))]
      · rw [← htasks]
        exact Grouping.perm_flatten_values_group pairs
    · intro e herror
      cases herror

end LegalLens.Orchestration.TaskDispatcher
