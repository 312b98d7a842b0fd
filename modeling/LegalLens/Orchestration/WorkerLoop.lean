import LegalLens.Orchestration.Dispatcher

/-!
# The loop of a worker

`Worker.run` alternates `BLPOP` with `_handle` until the stop event is set. The state below
is the place in that loop; the answer of the server to a `BLPOP` is a step of its own, so a
worker may die with an entry in its hands. Entries carry the history of their push, and a
worker keeps the history of what it popped, handed to `_handle` and finished. No branch of
a step reads a history.
-/

namespace LegalLens.Orchestration

/-- The history of a push: the dispatch call and the position in it. -/
structure Push (π : Type*) where
  call : ℕ
  position : ℕ
  worker : String
  task : Task π

structure Entry (π ε : Type*) where
  wire : ε
  push : Push π

/-- Where a worker is in the loop of `run`. -/
inductive Phase (π ε : Type*) where
  | unborn
  | ready
  | polling
  | popped (entry : Entry π ε)
  | handling (entry : Entry π ε) (task : Task π)
  | ended

structure WorkerState (π ε : Type*) where
  phase : Phase π ε
  stop : Bool
  taken : List (Entry π ε)
  handled : List (Entry π ε × Task π)
  finished : List (Entry π ε)

inductive WorkerAction where
  /-- `register` and the first steps of `run`. Worker ids are not reused. -/
  | start
  | requestStop
  /-- The test at the head of the loop: leave, or issue a `BLPOP`. -/
  | poll
  | timeout
  /-- `model_validate_json`; an error leaves the loop, a task is passed to `_handle`. -/
  | decode
  /-- `_handle` returns, whatever its handler did. -/
  | finish
  | crash
  deriving DecidableEq

variable {π ε : Type*}

def Phase.Ended : Phase π ε → Prop
  | .ended => True
  | _ => False

def Phase.inHandle : Phase π ε → Option (Task π)
  | .handling _ task => some task
  | _ => none

/-- The entry that was popped and is not finished. -/
def Phase.inHand : Phase π ε → Option (Entry π ε)
  | .popped entry => some entry
  | .handling entry _ => some entry
  | _ => none

/-- The process runs its loop. -/
def Phase.Live : Phase π ε → Prop
  | .unborn | .ended => False
  | _ => True

instance (phase : Phase π ε) : Decidable phase.Ended := by
  cases phase <;> unfold Phase.Ended <;> infer_instance

namespace WorkerState

def init : WorkerState π ε := ⟨.unborn, false, [], [], []⟩

def step (load : ε → Option (Task π)) (ws : WorkerState π ε) :
    WorkerAction → Option (WorkerState π ε)
  | .start =>
    match ws.phase with
    | .unborn => some { ws with phase := .ready }
    | _ => none
  | .requestStop => some { ws with stop := true }
  | .poll =>
    match ws.phase with
    | .ready => some { ws with phase := if ws.stop then .ended else .polling }
    | _ => none
  | .timeout =>
    match ws.phase with
    | .polling => some { ws with phase := .ready }
    | _ => none
  | .decode =>
    match ws.phase with
    | .popped entry =>
      match load entry.wire with
      | some task =>
        some { ws with phase := .handling entry task, handled := ws.handled ++ [(entry, task)] }
      | none => some { ws with phase := .ended }
    | _ => none
  | .finish =>
    match ws.phase with
    | .handling entry _ => some { ws with phase := .ready, finished := ws.finished ++ [entry] }
    | _ => none
  | .crash =>
    match ws.phase with
    | .unborn | .ended => none
    | _ => some { ws with phase := .ended }

/-- The `BLPOP` of a polling worker returns an entry. -/
def receive (ws : WorkerState π ε) (entry : Entry π ε) : WorkerState π ε :=
  { ws with phase := .popped entry, taken := ws.taken ++ [entry] }

/-- The step takes the worker out of its loop for good. -/
def Departs (load : ε → Option (Task π)) (ws : WorkerState π ε) : WorkerAction → Prop
  | .poll => ws.stop = true
  | .decode => ∀ entry, ws.phase = .popped entry → load entry.wire = none
  | .crash => True
  | _ => False

/-- What the histories of a worker have to do with its phase. -/
def Consistent (ws : WorkerState π ε) : Prop :=
  match ws.phase with
  | .unborn | .ready | .polling => ws.finished = ws.taken ∧ ws.handled.map Prod.fst = ws.taken
  | .popped entry =>
    ws.taken = ws.finished ++ [entry] ∧ ws.handled.map Prod.fst = ws.finished
  | .handling entry task =>
    ws.taken = ws.finished ++ [entry] ∧ ws.handled.map Prod.fst = ws.taken ∧
      (entry, task) ∈ ws.handled
  | .ended => ws.finished <+: ws.handled.map Prod.fst ∧ ws.handled.map Prod.fst <+: ws.taken

variable {load : ε → Option (Task π)} {ws ws' : WorkerState π ε} {action : WorkerAction}

/-- The same as `step`, one case for each way in which the loop goes on. -/
inductive Step (load : ε → Option (Task π)) (ws : WorkerState π ε) :
    WorkerAction → WorkerState π ε → Prop
  | start (hphase : ws.phase = .unborn) : Step load ws .start { ws with phase := .ready }
  | requestStop : Step load ws .requestStop { ws with stop := true }
  | leave (hphase : ws.phase = .ready) (hstop : ws.stop = true) :
      Step load ws .poll { ws with phase := .ended }
  | poll (hphase : ws.phase = .ready) (hstop : ws.stop = false) :
      Step load ws .poll { ws with phase := .polling }
  | timeout (hphase : ws.phase = .polling) : Step load ws .timeout { ws with phase := .ready }
  | decoded {entry : Entry π ε} {task : Task π} (hphase : ws.phase = .popped entry)
      (hload : load entry.wire = some task) :
      Step load ws .decode
        { ws with phase := .handling entry task, handled := ws.handled ++ [(entry, task)] }
  | undecodable {entry : Entry π ε} (hphase : ws.phase = .popped entry)
      (hload : load entry.wire = none) : Step load ws .decode { ws with phase := .ended }
  | finish {entry : Entry π ε} {task : Task π} (hphase : ws.phase = .handling entry task) :
      Step load ws .finish { ws with phase := .ready, finished := ws.finished ++ [entry] }
  | crash : Step load ws .crash { ws with phase := .ended }

theorem step_of_eq_some (h : ws.step load action = some ws') : Step load ws action ws' := by
  cases action with
  | start =>
    simp only [step] at h
    split at h <;> cases h
    next hphase => exact .start hphase
  | requestStop =>
    cases h
    exact .requestStop
  | poll =>
    simp only [step] at h
    split at h <;> cases h
    next hphase =>
      split_ifs with hstop
      · exact .leave hphase hstop
      · exact .poll hphase (Bool.eq_false_of_not_eq_true hstop)
  | timeout =>
    simp only [step] at h
    split at h <;> cases h
    next hphase => exact .timeout hphase
  | decode =>
    simp only [step] at h
    split at h
    next entry hphase =>
      split at h <;> cases h
      next task hload => exact .decoded hphase hload
      next hload => exact .undecodable hphase hload
    · cases h
  | finish =>
    simp only [step] at h
    split at h <;> cases h
    next entry task hphase => exact .finish hphase
  | crash =>
    simp only [step] at h
    split at h <;> cases h
    exact .crash

theorem consistent_init : (init : WorkerState π ε).Consistent := ⟨rfl, rfl⟩

/-- At any time the finished entries are the first of the handled ones, and these are the
first of the popped ones. -/
theorem Consistent.prefix_taken (h : ws.Consistent) :
    ws.finished <+: ws.handled.map Prod.fst ∧ ws.handled.map Prod.fst <+: ws.taken := by
  unfold Consistent at h
  split at h
  · exact ⟨by rw [h.1, h.2], by rw [h.2]⟩
  · exact ⟨by rw [h.1, h.2], by rw [h.2]⟩
  · exact ⟨by rw [h.1, h.2], by rw [h.2]⟩
  · exact ⟨by rw [h.2], by rw [h.2, h.1]; exact List.prefix_append _ _⟩
  · exact ⟨by rw [h.2.1, h.1]; exact List.prefix_append _ _, by rw [h.2.1]⟩
  · exact h

theorem Consistent.mem_taken_of_inHand (h : ws.Consistent) {entry : Entry π ε}
    (hentry : ws.phase.inHand = some entry) : entry ∈ ws.taken := by
  unfold Phase.inHand at hentry
  unfold Consistent at h
  split at hentry <;> cases hentry
  · next hphase =>
    rw [hphase] at h
    simp [h.1]
  · next task hphase =>
    rw [hphase] at h
    simp [h.1]

theorem step_taken (h : ws.step load action = some ws') : ws'.taken = ws.taken := by
  cases step_of_eq_some h <;> rfl

theorem step_consistent (hc : ws.Consistent) (h : ws.step load action = some ws') :
    ws'.Consistent := by
  have hpre := hc.prefix_taken
  unfold Consistent at hc
  cases step_of_eq_some h with
  | requestStop => exact hc
  | start hphase | poll hphase | timeout hphase =>
    rw [hphase] at hc
    exact hc
  | leave | undecodable | crash => exact hpre
  | decoded hphase =>
    rw [hphase] at hc
    refine ⟨hc.1, ?_, by simp⟩
    rw [List.map_append, hc.2, hc.1, List.map_singleton]
  | finish hphase =>
    rw [hphase] at hc
    exact ⟨hc.1.symm, hc.2.1⟩

theorem receive_consistent (hc : ws.Consistent) (hphase : ws.phase = .polling)
    (entry : Entry π ε) : (ws.receive entry).Consistent := by
  unfold Consistent at hc
  rw [hphase] at hc
  exact ⟨by rw [receive, hc.1], hc.2.trans hc.1.symm⟩

theorem step_handled (h : ws.step load action = some ws') :
    ws'.handled = ws.handled ∨
      ∃ entry task, load entry.wire = some task ∧ ws'.handled = ws.handled ++ [(entry, task)] := by
  cases step_of_eq_some h with
  | @decoded entry task _ hload => exact Or.inr ⟨entry, task, hload, rfl⟩
  | _ => exact Or.inl rfl

theorem step_finished (h : ws.step load action = some ws') :
    ws.finished <+: ws'.finished ∧ (ws'.phase.Ended → ws'.finished = ws.finished) := by
  cases step_of_eq_some h with
  | finish => exact ⟨List.prefix_append _ _, fun hended => hended.elim⟩
  | _ => exact ⟨List.prefix_rfl, fun _ => rfl⟩

theorem step_ended_iff (h : ws.step load action = some ws') :
    ws'.phase.Ended ↔ ws.phase.Ended ∨ ws.Departs load action := by
  cases step_of_eq_some h with
  | requestStop => simp [Departs]
  | crash => simp [Phase.Ended, Departs]
  | leave hphase hstop => simp [hphase, hstop, Phase.Ended, Departs]
  | poll hphase hstop => simp [hphase, hstop, Phase.Ended, Departs]
  | decoded hphase hload => simp [hphase, hload, Phase.Ended, Departs]
  | undecodable hphase hload => simp [hphase, hload, Phase.Ended, Departs]
  | start hphase | timeout hphase | finish hphase => simp [hphase, Phase.Ended, Departs]

theorem step_handling (h : ws.step load action = some ws') {entry : Entry π ε} {task : Task π}
    (hphase : ws.phase = .handling entry task) (hfinish : action ≠ .finish)
    (hcrash : action ≠ .crash) : ws'.phase = .handling entry task := by
  cases step_of_eq_some h with
  | requestStop => exact hphase
  | finish => exact absurd rfl hfinish
  | crash => exact absurd rfl hcrash
  | start hother | leave hother | poll hother | timeout hother | decoded hother
    | undecodable hother =>
    rw [hphase] at hother
    cases hother

end WorkerState

end LegalLens.Orchestration
