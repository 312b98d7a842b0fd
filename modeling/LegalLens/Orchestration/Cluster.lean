import LegalLens.Library.Runs
import LegalLens.Orchestration.WorkerLoop

/-!
# Dispatchers, queues and workers

The state of the cluster is the ring view of every dispatcher process, the Redis lists,
the commands that have been issued but not yet executed by the server, and the loop of
every worker. A run is a sequence of actions of these parties in any order. What a scan of
the heartbeat keys returns is part of the action, since replica lag and expiry are outside
the program, so membership may change between any two actions.
-/

namespace LegalLens.Orchestration

open Coordination

variable {π ε : Type*}

/-- The cluster. The list `served` is the history of the commands executed by the server,
and `noticed` holds the entries pushed to departed workers by the time some monitor
completed a scan without the worker. -/
structure Cluster (π ε : Type*) where
  registries : ℕ → WorkerRegistry
  queues : Queues (Entry π ε)
  inflight : List (List (Entry π ε))
  workers : String → WorkerState π ε
  calls : ℕ
  served : List (List (Entry π ε))
  noticed : List (Entry π ε)

inductive ClusterAction (π : Type*) where
  /-- `refresh_ring`, run for an event or by the dispatcher itself. -/
  | refresh (d : ℕ) (scan : List String)
  /-- One round of `HeartbeatMonitor.run`, without an `on_change` callback. -/
  | monitorScan (d : ℕ) (scan : List String)
  | dispatch (d : ℕ) (task : Task π)
  | dispatchMany (d : ℕ) (tasks : List (Task π))
  /-- The server executes a command in flight. -/
  | serve (i : ℕ)
  /-- The server answers the `BLPOP` of a worker. -/
  | pop (w : String)
  | worker (w : String) (action : WorkerAction)

def ClusterAction.dispatcher : ClusterAction π → Option ℕ
  | .dispatch d _ => some d
  | .dispatchMany d _ => some d
  | _ => none

def ClusterAction.tasks : ClusterAction π → List (Task π)
  | .dispatch _ task => [task]
  | .dispatchMany _ tasks => tasks
  | _ => []

namespace Cluster

def start : Cluster π ε :=
  ⟨fun _ => .init, fun _ => [], [], fun _ => .init, 0, [], []⟩

/-- All entries ever sent, in batches: executed by the server or in flight. -/
def batches (s : Cluster π ε) : List (List (Entry π ε)) := s.served ++ s.inflight

def sent (s : Cluster π ε) : List (Entry π ε) := s.batches.flatten

def pushedFor (s : Cluster π ε) (w : String) : List (Entry π ε) :=
  s.served.flatten.filter fun entry => entry.push.worker = w

def setWorker (s : Cluster π ε) (w : String) (ws : WorkerState π ε) : Cluster π ε :=
  { s with workers := Function.update s.workers w ws }

@[simp] theorem workers_setWorker_self (s : Cluster π ε) (w : String) (ws : WorkerState π ε) :
    (s.setWorker w ws).workers w = ws := Function.update_self ..

@[simp] theorem workers_setWorker_of_ne (s : Cluster π ε) {v w : String} (h : v ≠ w)
    (ws : WorkerState π ε) : (s.setWorker w ws).workers v = s.workers v :=
  Function.update_of_ne h ..

@[simp] theorem sent_setWorker (s : Cluster π ε) (w : String) (ws : WorkerState π ε) :
    (s.setWorker w ws).sent = s.sent := rfl

@[simp] theorem served_setWorker (s : Cluster π ε) (w : String) (ws : WorkerState π ε) :
    (s.setWorker w ws).served = s.served := rfl

@[simp] theorem pushedFor_setWorker (s : Cluster π ε) (w : String) (ws : WorkerState π ε) :
    (s.setWorker w ws).pushedFor = s.pushedFor := rfl

@[simp] theorem queues_setWorker (s : Cluster π ε) (w : String) (ws : WorkerState π ε) :
    (s.setWorker w ws).queues = s.queues := rfl

def issue (dump : Task π → ε) (s : Cluster π ε) (pipe : List (String × Task π)) : Cluster π ε :=
  let entries := pipe.mapIdx fun i c => ⟨dump c.2, ⟨s.calls, i, c.1, c.2⟩⟩
  { s with inflight := s.inflight ++ [entries], calls := s.calls + 1 }

def execute (queues : Queues (Entry π ε)) (entries : List (Entry π ε)) : Queues (Entry π ε) :=
  entries.foldl (fun q entry => q.rpush (workerQueueKey entry.push.worker) entry) queues

def refreshRing (hash : String → ℕ) (s : Cluster π ε) (d : ℕ) (scan : List String) : Cluster π ε :=
  { s with registries :=
    Function.update s.registries d ((s.registries d).refreshRing hash scan).1 }

/-- The entries pushed to workers that have departed and that the scan does not report. -/
def missedBy (s : Cluster π ε) (scan : List String) : List (Entry π ε) :=
  s.sent.filter fun entry =>
    (s.workers entry.push.worker).phase.Ended ∧ hbKey entry.push.worker ∉ scan

variable (hash : String → ℕ) (dump : Task π → ε) (load : ε → Option (Task π))

/-- The pushes that a dispatch action sends; `none` if it raises. -/
def route (s : Cluster π ε) : ClusterAction π → Option (List (String × Task π))
  | .dispatch d task =>
    match TaskDispatcher.owner hash (s.registries d) task.routingKey with
    | .ok (some w) => some [(w, task)]
    | _ => none
  | .dispatchMany d tasks =>
    match TaskDispatcher.routeMany hash (s.registries d) tasks Dict.empty [] with
    | .ok (_, pipe) => some pipe
    | .error _ => none
  | _ => none

def step (s : Cluster π ε) : ClusterAction π → Option (Cluster π ε)
  | .refresh d scan => some (s.refreshRing hash d scan)
  | .monitorScan d scan =>
    some { s.refreshRing hash d scan with noticed := s.noticed ++ s.missedBy scan }
  | .serve i =>
    match s.inflight[i]? with
    | none => none
    | some entries =>
      some
        { s with
          queues := execute s.queues entries
          inflight := s.inflight.eraseIdx i
          served := s.served ++ [entries] }
  | .pop w =>
    match (s.workers w).phase, s.queues (workerQueueKey w) with
    | .polling, entry :: rest =>
      some { s.setWorker w ((s.workers w).receive entry) with
        queues := Function.update s.queues (workerQueueKey w) rest }
    | _, _ => none
  | .worker w action => ((s.workers w).step load action).map (s.setWorker w)
  | action =>
    match s.route hash action with
    | some pipe => some (s.issue dump pipe)
    | none => some s

/-- The same as a relation, one case for each kind of step. -/
inductive Step (s : Cluster π ε) : ClusterAction π → Cluster π ε → Prop
  | refresh (d : ℕ) (scan : List String) : Step s (.refresh d scan) (s.refreshRing hash d scan)
  | monitorScan (d : ℕ) (scan : List String) :
      Step s (.monitorScan d scan)
        { s.refreshRing hash d scan with noticed := s.noticed ++ s.missedBy scan }
  | raise {a : ClusterAction π} {d : ℕ} (hd : a.dispatcher = some d)
      (h : s.route hash a = none) : Step s a s
  | issue {a : ClusterAction π} {pipe : List (String × Task π)}
      (h : s.route hash a = some pipe) : Step s a (s.issue dump pipe)
  | serve {i : ℕ} {entries : List (Entry π ε)} (h : s.inflight[i]? = some entries) :
      Step s (.serve i)
        { s with
          queues := execute s.queues entries
          inflight := s.inflight.eraseIdx i
          served := s.served ++ [entries] }
  | pop {w : String} {entry : Entry π ε} {rest : List (Entry π ε)}
      (hphase : (s.workers w).phase = .polling)
      (hqueue : s.queues (workerQueueKey w) = entry :: rest) :
      Step s (.pop w)
        { s.setWorker w ((s.workers w).receive entry) with
          queues := Function.update s.queues (workerQueueKey w) rest }
  | worker {w : String} {action : WorkerAction} {ws : WorkerState π ε}
      (h : (s.workers w).step load action = some ws) :
      Step s (.worker w action) (s.setWorker w ws)

variable {hash dump load}

theorem step_of_eq_some {s u : Cluster π ε} {a : ClusterAction π}
    (h : s.step hash dump load a = some u) : Step hash dump load s a u := by
  cases a with
  | refresh d scan =>
    cases h
    exact .refresh d scan
  | monitorScan d scan =>
    cases h
    exact .monitorScan d scan
  | serve i =>
    simp only [step] at h
    split at h
    · cases h
    next entries hentries =>
      cases h
      exact .serve hentries
  | pop w =>
    simp only [step] at h
    split at h
    next entry rest hphase hqueue =>
      cases h
      exact .pop hphase hqueue
    · cases h
  | worker w action =>
    obtain ⟨ws, hws, rfl⟩ := Option.map_eq_some_iff.mp h
    exact .worker hws
  | dispatch d task =>
    simp only [step] at h
    split at h <;> cases h
    next pipe hroute => exact .issue hroute
    next hroute => exact .raise rfl hroute
  | dispatchMany d tasks =>
    simp only [step] at h
    split at h <;> cases h
    next pipe hroute => exact .issue hroute
    next hroute => exact .raise rfl hroute

/-- The pushes of a dispatch: its tasks in list order, each with its owner at that time. -/
theorem route_eq_some {s : Cluster π ε} {a : ClusterAction π} {pipe : List (String × Task π)}
    (h : s.route hash a = some pipe) :
    ∃ d, a.dispatcher = some d ∧ pipe.map Prod.snd = a.tasks ∧
      ∀ c ∈ pipe,
        TaskDispatcher.owner hash (s.registries d) c.2.routingKey = .ok (some c.1) := by
  cases a with
  | dispatch d task =>
    simp only [route] at h
    split at h
    next w hw =>
      cases h
      exact ⟨d, rfl, rfl, by simpa using hw⟩
    · cases h
  | dispatchMany d tasks =>
    simp only [route] at h
    split at h
    next pipe hpipe =>
      cases h
      obtain ⟨routed, rfl, htasks, howner⟩ := TaskDispatcher.routeMany_eq_ok hpipe
      exact ⟨d, rfl, htasks, howner⟩
    · cases h
  | refresh d scan => cases h
  | monitorScan d scan => cases h
  | serve i => cases h
  | pop w => cases h
  | worker w action => cases h

end Cluster

end LegalLens.Orchestration
