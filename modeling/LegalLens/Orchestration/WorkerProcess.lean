import LegalLens.Library.Runs
import LegalLens.Orchestration.Dispatcher

/-!
# The two coroutines of a worker process

`Worker.run` registers the worker, starts `heartbeat_loop` as a background task and serves
its queue until the stop event is set; whatever takes it out of its loop, it then cancels
the background task and waits for it. The state says at which `await` each coroutine is. A
step is a reply to a Redis command, the end of a handler, or the first step or the wakeup of
the background task; it runs its coroutine up to the next `await`. Every Redis command may
raise, and the deregistration of the worker is part of the background task.
-/

namespace LegalLens.Orchestration

inductive Command where
  | setKey
  | publishJoin
  | blpop
  | deleteKey
  | publishLeave
  deriving DecidableEq, Repr

/-- How a handler ends. `_handle` catches every `Exception`, but no other `BaseException`. -/
inductive HandlerOutcome where
  | returned
  | exception
  | baseException
  deriving DecidableEq, Repr

/-- The `await` at which `run` is. It leaves its loop with or without an error in flight. -/
inductive MainPhase (η π : Type*) where
  | registerSet
  | registerPublish
  | popping
  | handling (handler : η) (task : Task π)
  | leaving (raises : Bool)
  | ended (raises : Bool)

/-- The `await` at which `heartbeat_loop` is, or how its task has ended. -/
inductive HeartbeatPhase where
  | absent
  | created
  | beating
  | sleeping
  | deleting
  | publishing
  | cancelled
  | failed
  deriving DecidableEq, Repr

/-- The coroutines, the stop event and the queue, with the history of the commands issued,
of the entries pushed and popped, and of the handler calls. -/
structure WorkerProcess (η π ε : Type*) where
  main : MainPhase η π
  heartbeat : HeartbeatPhase
  stop : Bool
  issued : List Command
  queue : List ε
  pushed : List ε
  popped : List ε
  calls : List (η × Task π)

inductive ProcessAction (ε : Type*) where
  | setStop
  | push (entry : ε)
  | registerReply (ok : Bool)
  | popTimeout
  | popError
  | popEntry
  | handlerDone (outcome : HandlerOutcome)
  | heartbeatStart
  | heartbeatReply (ok : Bool)
  | heartbeatWake
  | deregisterReply (ok : Bool)
  | finish

variable {η π ε : Type*}

def MainPhase.Serving : MainPhase η π → Prop
  | .popping | .handling _ _ => True
  | _ => False

def MainPhase.Left : MainPhase η π → Prop
  | .leaving _ | .ended _ => True
  | _ => False

/-- The background task may still be told to stop: it runs, will run, or has failed. -/
def HeartbeatPhase.Uncancelled : HeartbeatPhase → Prop
  | .created | .beating | .sleeping | .failed => True
  | _ => False

namespace WorkerProcess

def start : WorkerProcess η π ε := ⟨.registerSet, .absent, false, [.setKey], [], [], [], []⟩

def issue (s : WorkerProcess η π ε) (command : Command) : WorkerProcess η π ε :=
  { s with issued := s.issued ++ [command] }

/-- The `finally` block cancels the background task. A task that has not taken its first step
never runs; one that awaits inside its `try` goes on to deregister the worker. -/
def leave (s : WorkerProcess η π ε) (raises : Bool) : WorkerProcess η π ε :=
  match s.heartbeat with
  | .created => { s with main := .leaving raises, heartbeat := .cancelled }
  | .beating | .sleeping =>
    { s.issue .deleteKey with main := .leaving raises, heartbeat := .deleting }
  | _ => { s with main := .leaving raises }

/-- The head of the loop: leave it, or issue a `BLPOP`. -/
def loopHead (s : WorkerProcess η π ε) : WorkerProcess η π ε :=
  if s.stop then s.leave false else { s.issue .blpop with main := .popping }

def take (s : WorkerProcess η π ε) (entry : ε) (rest : List ε) : WorkerProcess η π ε :=
  { s with queue := rest, popped := s.popped ++ [entry] }

variable (load : ε → Option (Task π)) (handlers : Dict String η)

/-- A popped entry is decoded and passed to `_handle`, which looks the handler up. -/
def receive (s : WorkerProcess η π ε) (entry : ε) : WorkerProcess η π ε :=
  match load entry with
  | none => s.leave true
  | some task =>
    match handlers.get? task.kind with
    | none => s.loopHead
    | some handler =>
      { s with main := .handling handler task, calls := s.calls ++ [(handler, task)] }

def step (s : WorkerProcess η π ε) : ProcessAction ε → Option (WorkerProcess η π ε)
  | .setStop => some { s with stop := true }
  | .push entry => some { s with queue := s.queue ++ [entry], pushed := s.pushed ++ [entry] }
  | .registerReply ok =>
    match s.main, ok with
    | .registerSet, true => some { s.issue .publishJoin with main := .registerPublish }
    | .registerPublish, true => some { s with heartbeat := .created }.loopHead
    | .registerSet, false | .registerPublish, false => some { s with main := .ended true }
    | _, _ => none
  | .popTimeout =>
    match s.main with
    | .popping => some s.loopHead
    | _ => none
  | .popError =>
    match s.main with
    | .popping => some (s.leave true)
    | _ => none
  | .popEntry =>
    match s.main, s.queue with
    | .popping, entry :: rest => some ((s.take entry rest).receive load handlers entry)
    | _, _ => none
  | .handlerDone outcome =>
    match s.main with
    | .handling _ _ =>
      match outcome with
      | .returned | .exception => some s.loopHead
      | .baseException => some (s.leave true)
    | _ => none
  | .heartbeatStart =>
    match s.heartbeat with
    | .created => some { s.issue .setKey with heartbeat := .beating }
    | _ => none
  | .heartbeatReply ok =>
    match s.heartbeat with
    | .beating => some { s with heartbeat := if ok then .sleeping else .failed }
    | _ => none
  | .heartbeatWake =>
    match s.heartbeat with
    | .sleeping => some { s.issue .setKey with heartbeat := .beating }
    | _ => none
  | .deregisterReply ok =>
    match s.heartbeat, ok with
    | .deleting, true => some { s.issue .publishLeave with heartbeat := .publishing }
    | .publishing, true => some { s with heartbeat := .cancelled }
    | .deleting, false | .publishing, false => some { s with heartbeat := .failed }
    | _, _ => none
  | .finish =>
    match s.main, s.heartbeat with
    | .leaving raises, .cancelled => some { s with main := .ended raises }
    | .leaving _, .failed => some { s with main := .ended true }
    | _, _ => none

/-- The same as a relation, one case for each way in which a coroutine goes on. -/
inductive Step (s : WorkerProcess η π ε) : ProcessAction ε → WorkerProcess η π ε → Prop
  | setStop : Step s .setStop { s with stop := true }
  | push (entry : ε) :
      Step s (.push entry) { s with queue := s.queue ++ [entry], pushed := s.pushed ++ [entry] }
  | keySet (hmain : s.main = .registerSet) :
      Step s (.registerReply true) { s.issue .publishJoin with main := .registerPublish }
  | registered (hmain : s.main = .registerPublish) :
      Step s (.registerReply true) { s with heartbeat := .created }.loopHead
  | registerFailed (hmain : s.main = .registerSet ∨ s.main = .registerPublish) :
      Step s (.registerReply false) { s with main := .ended true }
  | timeout (hmain : s.main = .popping) : Step s .popTimeout s.loopHead
  | popError (hmain : s.main = .popping) : Step s .popError (s.leave true)
  | undecodable {entry : ε} {rest : List ε} (hmain : s.main = .popping)
      (hqueue : s.queue = entry :: rest) (hload : load entry = none) :
      Step s .popEntry ((s.take entry rest).leave true)
  | unknownKind {entry : ε} {rest : List ε} {task : Task π} (hmain : s.main = .popping)
      (hqueue : s.queue = entry :: rest) (hload : load entry = some task)
      (hkind : handlers.get? task.kind = none) : Step s .popEntry (s.take entry rest).loopHead
  | call {entry : ε} {rest : List ε} {task : Task π} {handler : η} (hmain : s.main = .popping)
      (hqueue : s.queue = entry :: rest) (hload : load entry = some task)
      (hkind : handlers.get? task.kind = some handler) :
      Step s .popEntry
        { s.take entry rest with
          main := .handling handler task, calls := s.calls ++ [(handler, task)] }
  | handled {handler : η} {task : Task π} {outcome : HandlerOutcome}
      (hmain : s.main = .handling handler task) (houtcome : outcome ≠ .baseException) :
      Step s (.handlerDone outcome) s.loopHead
  | escaped {handler : η} {task : Task π} (hmain : s.main = .handling handler task) :
      Step s (.handlerDone .baseException) (s.leave true)
  | heartbeatStart (hbeat : s.heartbeat = .created) :
      Step s .heartbeatStart { s.issue .setKey with heartbeat := .beating }
  | heartbeatReply (ok : Bool) (hbeat : s.heartbeat = .beating) :
      Step s (.heartbeatReply ok) { s with heartbeat := if ok then .sleeping else .failed }
  | heartbeatWake (hbeat : s.heartbeat = .sleeping) :
      Step s .heartbeatWake { s.issue .setKey with heartbeat := .beating }
  | deleted (hbeat : s.heartbeat = .deleting) :
      Step s (.deregisterReply true) { s.issue .publishLeave with heartbeat := .publishing }
  | deregistered (hbeat : s.heartbeat = .publishing) :
      Step s (.deregisterReply true) { s with heartbeat := .cancelled }
  | deregisterFailed (hbeat : s.heartbeat = .deleting ∨ s.heartbeat = .publishing) :
      Step s (.deregisterReply false) { s with heartbeat := .failed }
  | finish {raises : Bool} (hmain : s.main = .leaving raises) (hbeat : s.heartbeat = .cancelled) :
      Step s .finish { s with main := .ended raises }
  | finishFailed {raises : Bool} (hmain : s.main = .leaving raises)
      (hbeat : s.heartbeat = .failed) : Step s .finish { s with main := .ended true }

variable {load handlers} {s t : WorkerProcess η π ε} {a : ProcessAction ε}

theorem step_of_eq_some (h : s.step load handlers a = some t) : Step load handlers s a t := by
  cases a with
  | setStop =>
    cases h
    exact .setStop
  | push entry =>
    cases h
    exact .push entry
  | registerReply ok =>
    simp only [step] at h
    split at h <;> cases h
    next hmain => exact .keySet hmain
    next hmain => exact .registered hmain
    next hmain => exact .registerFailed (Or.inl hmain)
    next hmain => exact .registerFailed (Or.inr hmain)
  | popTimeout =>
    simp only [step] at h
    split at h <;> cases h
    next hmain => exact .timeout hmain
  | popError =>
    simp only [step] at h
    split at h <;> cases h
    next hmain => exact .popError hmain
  | popEntry =>
    simp only [step] at h
    split at h <;> cases h
    next entry rest hmain hqueue =>
      unfold receive
      split
      next hload => exact .undecodable hmain hqueue hload
      next task hload =>
        split
        next hkind => exact .unknownKind hmain hqueue hload hkind
        next handler hkind => exact .call hmain hqueue hload hkind
  | handlerDone outcome =>
    simp only [step] at h
    split at h
    next handler task hmain =>
      split at h <;> cases h
      · exact .handled hmain nofun
      · exact .handled hmain nofun
      · exact .escaped hmain
    · cases h
  | heartbeatStart =>
    simp only [step] at h
    split at h <;> cases h
    next hbeat => exact .heartbeatStart hbeat
  | heartbeatReply ok =>
    simp only [step] at h
    split at h <;> cases h
    next hbeat => exact .heartbeatReply ok hbeat
  | heartbeatWake =>
    simp only [step] at h
    split at h <;> cases h
    next hbeat => exact .heartbeatWake hbeat
  | deregisterReply ok =>
    simp only [step] at h
    split at h <;> cases h
    next hbeat => exact .deleted hbeat
    next hbeat => exact .deregistered hbeat
    next hbeat => exact .deregisterFailed (Or.inl hbeat)
    next hbeat => exact .deregisterFailed (Or.inr hbeat)
  | finish =>
    simp only [step] at h
    split at h <;> cases h
    next raises hmain hbeat => exact .finish hmain hbeat
    next raises hmain hbeat => exact .finishFailed hmain hbeat

/-! ## The phases of the two coroutines -/

def Staged (s : WorkerProcess η π ε) : Prop :=
  match s.main with
  | .registerSet | .registerPublish => s.heartbeat = .absent
  | .popping | .handling _ _ => s.heartbeat.Uncancelled
  | .leaving _ =>
    s.heartbeat = .deleting ∨ s.heartbeat = .publishing ∨ s.heartbeat = .cancelled ∨
      s.heartbeat = .failed
  | .ended _ => s.heartbeat = .absent ∨ s.heartbeat = .cancelled ∨ s.heartbeat = .failed

theorem Staged.uncancelled (hs : s.Staged) (hmain : s.main.Serving) : s.heartbeat.Uncancelled := by
  unfold Staged at hs
  unfold MainPhase.Serving at hmain
  split at hmain
  next heq => rwa [heq] at hs
  next heq => rwa [heq] at hs
  next => exact hmain.elim

theorem Staged.left_of_deregister (hs : s.Staged)
    (hbeat : s.heartbeat = .deleting ∨ s.heartbeat = .publishing) : s.main.Left := by
  unfold Staged at hs
  split at hs <;> rcases hbeat with hbeat | hbeat <;>
    simp_all [MainPhase.Left, HeartbeatPhase.Uncancelled]

theorem staged_leave (hbeat : s.heartbeat.Uncancelled) (raises : Bool) :
    (s.leave raises).Staged := by
  unfold leave
  split <;> simp_all [Staged, HeartbeatPhase.Uncancelled]
  split at hbeat <;> simp_all

theorem staged_loopHead (hbeat : s.heartbeat.Uncancelled) : s.loopHead.Staged := by
  unfold loopHead
  split_ifs with hstop
  · exact staged_leave hbeat false
  · exact hbeat

theorem staged_step (hs : s.Staged) (h : s.step load handlers a = some t) : t.Staged := by
  have hserving : s.main.Serving → s.heartbeat.Uncancelled := hs.uncancelled
  cases step_of_eq_some h with
  | setStop => exact hs
  | push entry => exact hs
  | keySet hmain => simpa [Staged, hmain, issue] using hs
  | registered hmain => exact staged_loopHead trivial
  | registerFailed hmain => rcases hmain with hmain | hmain <;> simp_all [Staged]
  | timeout hmain => exact staged_loopHead (hserving (by simp [hmain, MainPhase.Serving]))
  | popError hmain => exact staged_leave (hserving (by simp [hmain, MainPhase.Serving])) true
  | @undecodable entry rest hmain =>
    have hbeat := hserving (by simp [hmain, MainPhase.Serving])
    exact staged_leave (s := s.take entry rest) hbeat true
  | unknownKind hmain => exact staged_loopHead (hserving (by simp [hmain, MainPhase.Serving]))
  | call hmain => exact hserving (by simp [hmain, MainPhase.Serving])
  | handled hmain => exact staged_loopHead (hserving (by simp [hmain, MainPhase.Serving]))
  | escaped hmain => exact staged_leave (hserving (by simp [hmain, MainPhase.Serving])) true
  | heartbeatStart hbeat =>
    unfold Staged at hs ⊢
    split at hs <;> simp_all [HeartbeatPhase.Uncancelled, issue]
  | heartbeatReply ok hbeat =>
    unfold Staged at hs ⊢
    split at hs <;> cases ok <;> simp_all [HeartbeatPhase.Uncancelled]
  | heartbeatWake hbeat =>
    unfold Staged at hs ⊢
    split at hs <;> simp_all [HeartbeatPhase.Uncancelled, issue]
  | deleted hbeat =>
    unfold Staged at hs ⊢
    split at hs <;> simp_all [HeartbeatPhase.Uncancelled, issue]
  | deregistered hbeat =>
    unfold Staged at hs ⊢
    split at hs <;> simp_all [HeartbeatPhase.Uncancelled]
  | deregisterFailed hbeat =>
    unfold Staged at hs ⊢
    rcases hbeat with hbeat | hbeat <;> split at hs <;>
      simp_all [HeartbeatPhase.Uncancelled]
  | finish hmain hbeat => simp [Staged, hbeat]
  | finishFailed hmain hbeat => simp [Staged, hbeat]

theorem staged_start : (start : WorkerProcess η π ε).Staged := rfl

theorem not_serving_leave (raises : Bool) : ¬(s.leave raises).main.Serving := by
  unfold leave
  split <;> exact id

theorem heartbeat_loopHead (h : s.loopHead.main.Serving) :
    s.loopHead.heartbeat = s.heartbeat := by
  unfold loopHead at h ⊢
  split_ifs at h ⊢ with hstop
  · exact absurd h (not_serving_leave false)
  · rfl

end WorkerProcess

end LegalLens.Orchestration
