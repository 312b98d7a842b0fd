import LegalLens.Orchestration.WorkerProcess

/-!
# The end of a worker process

Only the cancellation handler of `heartbeat_loop` deregisters the worker, so what happens to
the registration when `run` ends depends on where the background task is when `run` leaves
its loop: a task that has not taken its first step never runs the handler, and one that has
failed is past it.
-/

namespace LegalLens.Orchestration.WorkerProcess

variable {η π ε : Type*} {load : ε → Option (Task π)} {handlers : Dict String η}
  {s t : WorkerProcess η π ε} {a : ProcessAction ε}

/-- The heartbeat key has been deleted after the last write to it, and the departure published
after that. -/
def Deregistered (issued : List Command) : Prop :=
  ∃ before after, issued = before ++ .deleteKey :: after ∧ .setKey ∉ after ∧ .publishLeave ∈ after

theorem not_deregistered {issued : List Command} (h : .deleteKey ∉ issued) :
    ¬Deregistered issued := by
  rintro ⟨before, after, rfl, -, -⟩
  simp at h

/-- The step takes `run` out of its loop, into the `finally` block. -/
def Leaves (load : ε → Option (Task π)) (handlers : Dict String η) (s : WorkerProcess η π ε) :
    ProcessAction ε → Prop
  | .registerReply ok => s.main = .registerPublish ∧ ok = true ∧ s.stop = true
  | .popTimeout => s.stop = true
  | .popError => True
  | .popEntry =>
    match s.queue with
    | [] => False
    | entry :: _ =>
      match load entry with
      | none => True
      | some task => handlers.get? task.kind = none ∧ s.stop = true
  | .handlerDone outcome => s.stop = true ∨ outcome = .baseException
  | _ => False

/-- `run` does not leave its loop before the background task has taken its first step, nor
after that task has failed. -/
def LeavesDuringHeartbeat (load : ε → Option (Task π)) (handlers : Dict String η)
    (s : WorkerProcess η π ε) (a : ProcessAction ε) : Prop :=
  s.Leaves load handlers a → s.heartbeat = .beating ∨ s.heartbeat = .sleeping

/-- The commands of a deregistration reach Redis. -/
def DeregisterSucceeds (a : ProcessAction ε) : Prop := a ≠ .deregisterReply false

/-- The registration has completed: `run` has gone on to create the background task. -/
def RegisterCompleted (s : WorkerProcess η π ε) : Prop := s.heartbeat ≠ .absent

/-- The deregistration is under way or complete. -/
def Deregistering (s : WorkerProcess η π ε) : Prop :=
  s.main.Left ∧
    ((s.heartbeat = .deleting ∧ ∃ before, s.issued = before ++ [.deleteKey]) ∨
      ((s.heartbeat = .publishing ∨ s.heartbeat = .cancelled) ∧
        ∃ before, s.issued = before ++ [.deleteKey, .publishLeave]))

/-- The worker is not registered yet or still in its loop, or it deregisters. -/
def Orderly (s : WorkerProcess η π ε) : Prop :=
  ((s.main.Left → s.heartbeat = .absent) ∧ .deleteKey ∉ s.issued) ∨ s.Deregistering

/-- `run` has left its loop, and nothing will delete the key any more. -/
def Stranded (s : WorkerProcess η π ε) : Prop :=
  s.main.Left ∧ (s.heartbeat = .cancelled ∨ s.heartbeat = .failed) ∧ .deleteKey ∉ s.issued

theorem leave_cases (hbeat : s.heartbeat.Uncancelled) (hissued : .deleteKey ∉ s.issued)
    (raises : Bool) :
    (s.heartbeat = .beating ∨ s.heartbeat = .sleeping) ∧ (s.leave raises).Deregistering ∨
      ¬(s.heartbeat = .beating ∨ s.heartbeat = .sleeping) ∧ (s.leave raises).Stranded := by
  unfold leave HeartbeatPhase.Uncancelled at *
  cases hphase : s.heartbeat <;> simp only [hphase] at hbeat ⊢
  · exact Or.inr ⟨by simp, trivial, Or.inl rfl, hissued⟩
  · exact Or.inl ⟨by simp, trivial, Or.inl ⟨rfl, s.issued, rfl⟩⟩
  · exact Or.inl ⟨by simp, trivial, Or.inl ⟨rfl, s.issued, rfl⟩⟩
  · exact Or.inr ⟨by simp, trivial, Or.inr rfl, hissued⟩

/-- A step that leaves the loop leads to a deregistration if the background task is in its own
loop, and otherwise to none. -/
theorem fork_leave {u : WorkerProcess η π ε} (hleaves : s.Leaves load handlers a)
    (hbeat : u.heartbeat.Uncancelled) (hissued : .deleteKey ∉ u.issued)
    (hsame : s.heartbeat = .beating ∨ s.heartbeat = .sleeping ↔
      u.heartbeat = .beating ∨ u.heartbeat = .sleeping) (raises : Bool) :
    s.LeavesDuringHeartbeat load handlers a ∧ (u.leave raises).Orderly ∨
      ¬s.LeavesDuringHeartbeat load handlers a ∧ (u.leave raises).Stranded := by
  rcases leave_cases hbeat hissued raises with ⟨hphase, hleave⟩ | ⟨hphase, hleave⟩
  · exact Or.inl ⟨fun _ => hsame.mpr hphase, Or.inr hleave⟩
  · exact Or.inr ⟨fun h => hphase (hsame.mp (h hleaves)), hleave⟩

theorem fork_loopHead {u : WorkerProcess η π ε} (hleaves : s.Leaves load handlers a ↔ u.stop = true)
    (hbeat : u.heartbeat.Uncancelled) (hissued : .deleteKey ∉ u.issued)
    (hsame : s.heartbeat = .beating ∨ s.heartbeat = .sleeping ↔
      u.heartbeat = .beating ∨ u.heartbeat = .sleeping) :
    s.LeavesDuringHeartbeat load handlers a ∧ u.loopHead.Orderly ∨
      ¬s.LeavesDuringHeartbeat load handlers a ∧ u.loopHead.Stranded := by
  unfold loopHead
  split_ifs with hstop
  · exact fork_leave (hleaves.mpr hstop) hbeat hissued hsame false
  · refine Or.inl ⟨fun h => absurd (hleaves.mp h) hstop, Or.inl ⟨False.elim, ?_⟩⟩
    simp [issue, hissued]

theorem Orderly.issued_of_not_left (hs : s.Orderly) (hleft : ¬s.main.Left) :
    .deleteKey ∉ s.issued := by
  rcases hs with ⟨-, hissued⟩ | ⟨hleft', -⟩
  · exact hissued
  · exact absurd hleft' hleft

theorem Orderly.not_left (hs : s.Orderly)
    (hbeat : s.heartbeat = .created ∨ s.heartbeat = .beating ∨ s.heartbeat = .sleeping) :
    ¬s.main.Left := by
  rcases hs with ⟨hleft, -⟩ | ⟨-, hphase⟩
  · intro h
    rw [hleft h] at hbeat
    simp at hbeat
  · rcases hbeat with hbeat | hbeat | hbeat <;> simp [hbeat] at hphase

theorem Orderly.deregistering (hs : s.Orderly) (hleft : s.main.Left)
    (hbeat : s.heartbeat ≠ .absent) : s.Deregistering := by
  rcases hs with ⟨habsent, -⟩ | hs
  · exact absurd (habsent hleft) hbeat
  · exact hs

theorem orderly_step (hstaged : s.Staged) (hs : s.Orderly) (ha : DeregisterSucceeds a)
    (h : s.step load handlers a = some t) :
    s.LeavesDuringHeartbeat load handlers a ∧ t.Orderly ∨
      ¬s.LeavesDuringHeartbeat load handlers a ∧ t.Stranded := by
  have hserving : s.main.Serving → s.heartbeat.Uncancelled ∧ .deleteKey ∉ s.issued := by
    intro hserving
    refine ⟨hstaged.uncancelled hserving, hs.issued_of_not_left ?_⟩
    cases hmain : s.main <;> simp_all [MainPhase.Serving, MainPhase.Left]
  cases step_of_eq_some h with
  | setStop => exact Or.inl ⟨False.elim, hs⟩
  | push entry => exact Or.inl ⟨False.elim, hs⟩
  | keySet hmain =>
    have hissued := hs.issued_of_not_left (by simp [hmain, MainPhase.Left])
    refine Or.inl ⟨?_, Or.inl ⟨False.elim, by simp [issue, hissued]⟩⟩
    simp [LeavesDuringHeartbeat, Leaves, hmain]
  | registered hmain =>
    have hissued := hs.issued_of_not_left (by simp [hmain, MainPhase.Left])
    have habsent : s.heartbeat = .absent := by simpa [Staged, hmain] using hstaged
    have hleaves : s.Leaves load handlers (.registerReply true) ↔ s.stop = true := by
      simp [Leaves, hmain]
    exact fork_loopHead (u := { s with heartbeat := .created }) hleaves trivial hissued
      (by simp [habsent])
  | registerFailed hmain =>
    have hissued : .deleteKey ∉ s.issued := by
      apply hs.issued_of_not_left
      rcases hmain with hmain | hmain <;> simp [hmain, MainPhase.Left]
    have habsent : s.heartbeat = .absent := by
      rcases hmain with hmain | hmain <;> simpa [Staged, hmain] using hstaged
    refine Or.inl ⟨?_, Or.inl ⟨fun _ => habsent, hissued⟩⟩
    simp [LeavesDuringHeartbeat, Leaves]
  | timeout hmain =>
    obtain ⟨hbeat, hissued⟩ := hserving (by simp [hmain, MainPhase.Serving])
    have hleaves : s.Leaves load handlers .popTimeout ↔ s.stop = true := Iff.rfl
    exact fork_loopHead hleaves hbeat hissued Iff.rfl
  | popError hmain =>
    obtain ⟨hbeat, hissued⟩ := hserving (by simp [hmain, MainPhase.Serving])
    have hleaves : s.Leaves load handlers .popError := trivial
    exact fork_leave hleaves hbeat hissued Iff.rfl true
  | @undecodable entry rest hmain hqueue hload =>
    obtain ⟨hbeat, hissued⟩ := hserving (by simp [hmain, MainPhase.Serving])
    have hleaves : s.Leaves load handlers .popEntry := by simp [Leaves, hqueue, hload]
    exact fork_leave (u := s.take entry rest) hleaves hbeat hissued Iff.rfl true
  | @unknownKind entry rest task hmain hqueue hload hkind =>
    obtain ⟨hbeat, hissued⟩ := hserving (by simp [hmain, MainPhase.Serving])
    have hleaves : s.Leaves load handlers .popEntry ↔ s.stop = true := by
      simp [Leaves, hqueue, hload, hkind]
    exact fork_loopHead (u := s.take entry rest) hleaves hbeat hissued Iff.rfl
  | call hmain hqueue hload hkind =>
    obtain ⟨-, hissued⟩ := hserving (by simp [hmain, MainPhase.Serving])
    refine Or.inl ⟨?_, Or.inl ⟨False.elim, hissued⟩⟩
    simp [LeavesDuringHeartbeat, Leaves, hqueue, hload, hkind]
  | @handled _ _ outcome hmain houtcome =>
    obtain ⟨hbeat, hissued⟩ := hserving (by simp [hmain, MainPhase.Serving])
    have hleaves : s.Leaves load handlers (.handlerDone outcome) ↔ s.stop = true := by
      simp [Leaves, houtcome]
    exact fork_loopHead hleaves hbeat hissued Iff.rfl
  | escaped hmain =>
    obtain ⟨hbeat, hissued⟩ := hserving (by simp [hmain, MainPhase.Serving])
    have hleaves : s.Leaves load handlers (.handlerDone .baseException) := Or.inr rfl
    exact fork_leave hleaves hbeat hissued Iff.rfl true
  | heartbeatStart hbeat =>
    have hleft := hs.not_left (Or.inl hbeat)
    have hissued := hs.issued_of_not_left hleft
    exact Or.inl ⟨False.elim, Or.inl ⟨fun h => absurd h hleft, by simp [issue, hissued]⟩⟩
  | heartbeatReply ok hbeat =>
    have hleft := hs.not_left (Or.inr (Or.inl hbeat))
    exact Or.inl ⟨False.elim, Or.inl ⟨fun h => absurd h hleft, hs.issued_of_not_left hleft⟩⟩
  | heartbeatWake hbeat =>
    have hleft := hs.not_left (Or.inr (Or.inr hbeat))
    have hissued := hs.issued_of_not_left hleft
    exact Or.inl ⟨False.elim, Or.inl ⟨fun h => absurd h hleft, by simp [issue, hissued]⟩⟩
  | deleted hbeat =>
    have hleft := hstaged.left_of_deregister (Or.inl hbeat)
    obtain ⟨-, ⟨-, before, hissued⟩ | ⟨hphase, -⟩⟩ := hs.deregistering hleft (by simp [hbeat])
    · refine Or.inl ⟨False.elim, Or.inr ⟨hleft, Or.inr ⟨Or.inl rfl, before, ?_⟩⟩⟩
      simp [issue, hissued]
    · simp [hbeat] at hphase
  | deregistered hbeat =>
    have hleft := hstaged.left_of_deregister (Or.inr hbeat)
    obtain ⟨-, ⟨hphase, -⟩ | ⟨-, hissued⟩⟩ := hs.deregistering hleft (by simp [hbeat])
    · simp [hbeat] at hphase
    · exact Or.inl ⟨False.elim, Or.inr ⟨hleft, Or.inr ⟨Or.inr rfl, hissued⟩⟩⟩
  | deregisterFailed hbeat => exact absurd rfl ha
  | finish hmain hbeat =>
    obtain ⟨-, ⟨hphase, -⟩ | ⟨-, hissued⟩⟩ :=
      hs.deregistering (by simp [hmain, MainPhase.Left]) (by simp [hbeat])
    · simp [hbeat] at hphase
    · exact Or.inl ⟨False.elim, Or.inr ⟨trivial, Or.inr ⟨Or.inr hbeat, hissued⟩⟩⟩
  | finishFailed hmain hbeat =>
    obtain ⟨-, ⟨hphase, -⟩ | ⟨hphase, -⟩⟩ :=
      hs.deregistering (by simp [hmain, MainPhase.Left]) (by simp [hbeat])
    · simp [hbeat] at hphase
    · simp [hbeat] at hphase

theorem stranded_step (hs : s.Stranded)
    (h : s.step load handlers a = some t) : t.Stranded := by
  obtain ⟨hleft, hphase, hissued⟩ := hs
  cases step_of_eq_some h with
  | setStop => exact ⟨hleft, hphase, hissued⟩
  | push entry => exact ⟨hleft, hphase, hissued⟩
  | finish hmain hbeat => exact ⟨trivial, hphase, hissued⟩
  | finishFailed hmain hbeat => exact ⟨trivial, hphase, hissued⟩
  | registerFailed hmain =>
    rcases hmain with hmain | hmain <;> simp [hmain, MainPhase.Left] at hleft
  | deregisterFailed hbeat => rcases hbeat with hbeat | hbeat <;> simp [hbeat] at hphase
  | _ => simp_all [MainPhase.Left]

/-- A worker that was registered is deregistered when `run` ends exactly if `run` left its
loop while the background task was in its own, provided the deregistration itself succeeds. -/
theorem deregistered_iff {acts : List (ProcessAction ε)}
    (hacts : ∀ a ∈ acts, DeregisterSucceeds a)
    (hrun : Runs.run (step load handlers) start acts = some s) {raises : Bool}
    (hended : s.main = .ended raises) (hregistered : s.RegisterCompleted) :
    Deregistered s.issued ↔
      Runs.EveryStep (step load handlers) start acts (LeavesDuringHeartbeat load handlers) := by
  have hleft : s.main.Left := by simp [hended, MainPhase.Left]
  have hfork := Runs.everyStep_or_of_fork (G := fun s => s.Staged ∧ s.Orderly)
    (B := fun s => s.Staged ∧ s.Stranded) (A := fun _ a => DeregisterSucceeds a)
    (fun t a u ht ha h => by
      rcases orderly_step ht.1 ht.2 ha h with ⟨hP, hu⟩ | ⟨hP, hu⟩
      · exact Or.inl ⟨hP, staged_step ht.1 h, hu⟩
      · exact Or.inr ⟨hP, staged_step ht.1 h, hu⟩)
    (fun t a u ht _ h => ⟨staged_step ht.1 h, stranded_step ht.2 h⟩)
    ⟨staged_start, Or.inl ⟨False.elim, by simp [start]⟩⟩
    (Runs.everyStep_of_forall_mem hacts) hrun
  rcases hfork with ⟨hP, hstaged, horderly⟩ | ⟨hP, -, -, -, hissued⟩
  · apply iff_of_true _ hP
    obtain ⟨-, ⟨hphase, -⟩ | ⟨-, before, hissued⟩⟩ := horderly.deregistering hleft hregistered
    · simp [Staged, hended, hphase] at hstaged
    · exact ⟨before, [.publishLeave], hissued, by simp, by simp⟩
  · exact iff_of_false (not_deregistered hissued) hP

/-- A worker that is told to stop while it waits for tasks. -/
theorem deregistered_iff_stopped :
    let acts : List (ProcessAction (Task Unit)) :=
      [.registerReply true, .registerReply true, .heartbeatStart, .heartbeatReply true, .setStop,
        .popTimeout, .deregisterReply true, .deregisterReply true, .finish]
    let handlers : Dict String Unit := Dict.empty
    ∃ s, Runs.run (step some handlers) start acts = some s ∧ s.main = .ended false ∧
      (Deregistered s.issued ↔
        Runs.EveryStep (step some handlers) start acts (LeavesDuringHeartbeat some handlers)) := by
  intro acts handlers
  have hacts : ∀ a ∈ acts, DeregisterSucceeds a := by
    simp [acts, DeregisterSucceeds]
  exact ⟨_, rfl, rfl, deregistered_iff hacts rfl rfl nofun⟩

/-- The stop event is set while `register` awaits its last reply: `run` cancels the background
task before its first step and returns, with the heartbeat key still there. -/
theorem stopped_while_registering :
    let acts : List (ProcessAction (Task Unit)) :=
      [.registerReply true, .setStop, .registerReply true, .finish]
    let handlers : Dict String Unit := Dict.empty
    (∀ a ∈ acts, DeregisterSucceeds a) ∧
      ∃ s, Runs.run (step some handlers) start acts = some s ∧ s.main = .ended false ∧
        s.RegisterCompleted ∧ s.issued = [.setKey, .publishJoin] ∧ ¬Deregistered s.issued := by
  intro acts handlers
  refine ⟨by simp [acts, DeregisterSucceeds], _, rfl, rfl, nofun, rfl, ?_⟩
  exact not_deregistered (by decide)

end LegalLens.Orchestration.WorkerProcess
