import LegalLens.Orchestration.WorkerLoop
import LegalLens.Orchestration.WorkerProcess

/-!
# The process runs the loop

`WorkerProcess` follows the two coroutines from one `await` to the next, and `WorkerState` is
the place of `run` in its loop, for any number of workers at once. The first refines the
second: a step of the process is matched by the moves of the loop that it runs through, and
those of the background task by none.
-/

namespace LegalLens.Orchestration.WorkerProcess

variable {η π ε : Type*}

/-- A move of one worker in its loop: an action of its own, or an entry that it receives. -/
inductive LoopMove (π ε : Type*) where
  | act (action : WorkerAction)
  | receive (entry : Entry π ε)

def loopStep (load : ε → Option (Task π)) (ws : WorkerState π ε) :
    LoopMove π ε → Option (WorkerState π ε)
  | .act action => ws.step load action
  | .receive entry =>
    match ws.phase with
    | .polling => some (ws.receive entry)
    | _ => none

/-- The place in the loop that goes with an `await` of `run`; a registration that fails never
gets to the loop. -/
def AtPhase : MainPhase η π → Phase π ε → Prop
  | .registerSet, phase | .registerPublish, phase => phase = .unborn
  | .popping, phase => phase = .polling
  | .handling _ task, phase => ∃ entry, phase = .handling entry task
  | .leaving _, phase | .ended _, phase => ¬phase.Live

def handlerCalls (handlers : Dict String η) (handled : List (Entry π ε × Task π)) :
    List (η × Task π) :=
  handled.filterMap fun h => (handlers.get? h.2.kind).map fun handler => (handler, h.2)

structure Agrees (handlers : Dict String η) (s : WorkerProcess η π ε) (ws : WorkerState π ε) :
    Prop where
  stop : s.stop = ws.stop
  popped : s.popped = ws.taken.map Entry.wire
  calls : s.calls = handlerCalls handlers ws.handled

/-- The process is at that place in the loop, with that history. -/
structure InLoop (handlers : Dict String η) (s : WorkerProcess η π ε) (ws : WorkerState π ε) :
    Prop where
  phase : AtPhase s.main ws.phase
  agrees : Agrees handlers s ws

variable {load : ε → Option (Task π)} {handlers : Dict String η} {s t : WorkerProcess η π ε}
  {ws : WorkerState π ε} {a : ProcessAction ε}

theorem inLoop_start : InLoop handlers (start : WorkerProcess η π ε) .init :=
  ⟨rfl, rfl, rfl, rfl⟩

theorem inLoop_leave {raises : Bool} (hphase : ws.phase = .ended) (hs : Agrees handlers s ws) :
    InLoop handlers (s.leave raises) ws := by
  unfold leave
  split <;> exact ⟨by rw [hphase]; exact id, hs.stop, hs.popped, hs.calls⟩

theorem exists_poll (load : ε → Option (Task π)) (hphase : ws.phase = .ready)
    (hs : Agrees handlers s ws) :
    ∃ ws', loopStep load ws (.act .poll) = some ws' ∧ InLoop handlers s.loopHead ws' := by
  refine ⟨{ ws with phase := if ws.stop then .ended else .polling }, ?_, ?_⟩
  · rw [loopStep, WorkerState.step, hphase]
  · unfold loopHead
    rw [hs.stop]
    split_ifs with hset
    · exact inLoop_leave rfl ⟨hs.stop, hs.popped, hs.calls⟩
    · exact ⟨rfl, hs.stop, hs.popped, hs.calls⟩

/-- A worker at a point of its loop can get to some related one. -/
def Matched (load : ε → Option (Task π)) (handlers : Dict String η) (ws : WorkerState π ε)
    (t : WorkerProcess η π ε) : Prop :=
  ∃ moves ws', Runs.run (loopStep load) ws moves = some ws' ∧ InLoop handlers t ws'

theorem matched_self (hs : InLoop handlers t ws) : Matched load handlers ws t := ⟨[], ws, rfl, hs⟩

theorem matched_loopHead {ws' : WorkerState π ε} {moves : List (LoopMove π ε)}
    (hmoves : Runs.run (loopStep load) ws moves = some ws') (hphase : ws'.phase = .ready)
    (hs : Agrees handlers s ws') : Matched load handlers ws s.loopHead := by
  obtain ⟨u, hpoll, hloop⟩ := exists_poll load hphase hs
  exact ⟨moves ++ [.act .poll], u, Runs.run_concat_eq_some.mpr ⟨ws', hmoves, hpoll⟩, hloop⟩

theorem handlerCalls_concat (handled : List (Entry π ε × Task π)) (entry : Entry π ε)
    (task : Task π) :
    handlerCalls handlers (handled ++ [(entry, task)]) =
      handlerCalls handlers handled ++
        ((handlers.get? task.kind).map fun handler => (handler, task)).toList := by
  unfold handlerCalls
  rw [List.filterMap_append]
  cases h : handlers.get? task.kind <;> simp [h]

theorem popped_take (hpopped : s.popped = ws.taken.map Entry.wire) (entry : Entry π ε)
    (rest : List ε) :
    (s.take entry.wire rest).popped = (ws.receive entry).taken.map Entry.wire := by
  rw [take, WorkerState.receive, List.map_append, hpopped]
  rfl

/-- One step of the process is matched by moves of the loop. The history `origin` of the
entries is that of whoever pushed them. -/
theorem matched_step (origin : ε → Push π) (hs : InLoop handlers s ws)
    (h : s.step load handlers a = some t) : Matched load handlers ws t := by
  obtain ⟨hphase, hstop, hpopped, hcalls⟩ := hs
  cases step_of_eq_some h with
  | setStop =>
    exact ⟨[.act .requestStop], { ws with stop := true }, rfl, hphase, rfl, hpopped, hcalls⟩
  | push entry => exact matched_self ⟨hphase, hstop, hpopped, hcalls⟩
  | keySet hmain =>
    rw [hmain] at hphase
    exact matched_self ⟨hphase, hstop, hpopped, hcalls⟩
  | registered hmain =>
    rw [hmain] at hphase
    have hmoves : Runs.run (loopStep load) ws [.act .start] =
        some { ws with phase := .ready } := by
      rw [Runs.run, loopStep, WorkerState.step, hphase]
      rfl
    exact matched_loopHead hmoves rfl ⟨hstop, hpopped, hcalls⟩
  | registerFailed hmain =>
    have hunborn : ws.phase = .unborn := by
      rcases hmain with hmain | hmain <;> rwa [hmain] at hphase
    exact matched_self ⟨by rw [hunborn]; exact id, hstop, hpopped, hcalls⟩
  | timeout hmain =>
    have hpolling : ws.phase = .polling := by rwa [hmain] at hphase
    have hmoves : Runs.run (loopStep load) ws [.act .timeout] =
        some { ws with phase := .ready } := by
      rw [Runs.run, loopStep, WorkerState.step, hpolling]
      rfl
    exact matched_loopHead hmoves rfl ⟨hstop, hpopped, hcalls⟩
  | popError hmain =>
    have hpolling : ws.phase = .polling := by rwa [hmain] at hphase
    refine ⟨[.act .crash], { ws with phase := .ended }, ?_,
      inLoop_leave rfl ⟨hstop, hpopped, hcalls⟩⟩
    rw [Runs.run, loopStep, WorkerState.step, hpolling]
    rfl
  | @undecodable entry rest hmain hqueue hload =>
    have hpolling : ws.phase = .polling := by rwa [hmain] at hphase
    let popped : Entry π ε := ⟨entry, origin entry⟩
    refine ⟨[.receive popped, .act .decode], { ws.receive popped with phase := .ended }, ?_,
      inLoop_leave rfl ⟨hstop, popped_take hpopped popped rest, hcalls⟩⟩
    simp [Runs.run, loopStep, hpolling, WorkerState.receive, WorkerState.step, popped, hload]
  | @unknownKind entry rest task hmain hqueue hload hkind =>
    have hpolling : ws.phase = .polling := by rwa [hmain] at hphase
    let popped : Entry π ε := ⟨entry, origin entry⟩
    have hmoves : Runs.run (loopStep load) ws [.receive popped, .act .decode, .act .finish] =
        some { ws.receive popped with
          phase := .ready
          handled := ws.handled ++ [(popped, task)]
          finished := ws.finished ++ [popped] } := by
      simp [Runs.run, loopStep, hpolling, WorkerState.receive, WorkerState.step, popped, hload]
    refine matched_loopHead hmoves rfl ⟨hstop, popped_take hpopped popped rest, ?_⟩
    rw [handlerCalls_concat, hkind, Option.map_none, Option.toList_none, List.append_nil]
    exact hcalls
  | @call entry rest task handler hmain hqueue hload hkind =>
    have hpolling : ws.phase = .polling := by rwa [hmain] at hphase
    let popped : Entry π ε := ⟨entry, origin entry⟩
    refine ⟨[.receive popped, .act .decode],
      { ws.receive popped with
        phase := .handling popped task
        handled := ws.handled ++ [(popped, task)] }, ?_, ⟨popped, rfl⟩, hstop,
      popped_take hpopped popped rest, ?_⟩
    · simp [Runs.run, loopStep, hpolling, WorkerState.receive, WorkerState.step, popped, hload]
    · rw [handlerCalls_concat, hkind, Option.map_some, Option.toList_some, ← hcalls]
  | handled hmain houtcome =>
    rw [hmain] at hphase
    obtain ⟨entry, hphase⟩ := hphase
    have hmoves : Runs.run (loopStep load) ws [.act .finish] =
        some { ws with phase := .ready, finished := ws.finished ++ [entry] } := by
      rw [Runs.run, loopStep, WorkerState.step, hphase]
      rfl
    exact matched_loopHead hmoves rfl ⟨hstop, hpopped, hcalls⟩
  | escaped hmain =>
    rw [hmain] at hphase
    obtain ⟨entry, hphase⟩ := hphase
    refine ⟨[.act .crash], { ws with phase := .ended }, ?_,
      inLoop_leave rfl ⟨hstop, hpopped, hcalls⟩⟩
    rw [Runs.run, loopStep, WorkerState.step, hphase]
    rfl
  | finish hmain hbeat | finishFailed hmain hbeat =>
    rw [hmain] at hphase
    exact matched_self ⟨hphase, hstop, hpopped, hcalls⟩
  | _ => exact matched_self ⟨hphase, hstop, hpopped, hcalls⟩

/-- Every run of the process is matched by a run of the loop that ends at the same place. -/
theorem refines_loop (origin : ε → Push π) {acts : List (ProcessAction ε)}
    (hrun : Runs.run (step load handlers) start acts = some s) :
    Matched load handlers .init s :=
  Runs.exists_run_of_simulation (fun _ _ _ _ hs h => matched_step origin hs h) inLoop_start hrun

end LegalLens.Orchestration.WorkerProcess
