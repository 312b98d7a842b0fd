import LegalLens.Orchestration.WorkerProcess

/-!
# What a serving worker can survive

The heartbeat loop catches nothing but its cancellation, so one failed heartbeat ends it for
good while `run` goes on serving. The main loop guards the lookup and the call of a handler,
but not the decoding of a popped entry.
-/

namespace LegalLens.Orchestration.WorkerProcess

variable {η π ε : Type*} {load : ε → Option (Task π)} {handlers : Dict String η}
  {s t : WorkerProcess η π ε} {a : ProcessAction ε}

/-! ## The heartbeat of a serving worker -/

/-- While the main loop pops or handles tasks, the heartbeat loop has not terminated. -/
def KeepsBeating (s : WorkerProcess η π ε) : Prop :=
  s.main.Serving → s.heartbeat ≠ .cancelled ∧ s.heartbeat ≠ .failed

theorem Staged.keepsBeating (hs : s.Staged) (h : s.main.Serving → s.heartbeat ≠ .failed) :
    s.KeepsBeating := by
  intro hserving
  constructor
  · intro hbeat
    have := hs.uncancelled hserving
    rw [hbeat] at this
    exact this
  · exact h hserving

theorem failed_step (hs : s.Staged) (h : s.step load handlers a = some t)
    (hserving : t.main.Serving) (hfailed : t.heartbeat = .failed) :
    s.main.Serving ∧ s.heartbeat = .failed ∨ a = .heartbeatReply false := by
  cases step_of_eq_some h with
  | setStop => exact Or.inl ⟨hserving, hfailed⟩
  | push entry => exact Or.inl ⟨hserving, hfailed⟩
  | keySet hmain => exact hserving.elim
  | registered hmain =>
    rw [heartbeat_loopHead hserving] at hfailed
    cases hfailed
  | registerFailed hmain => exact hserving.elim
  | timeout hmain =>
    rw [heartbeat_loopHead hserving] at hfailed
    exact Or.inl ⟨by simp [hmain, MainPhase.Serving], hfailed⟩
  | popError hmain => exact absurd hserving (not_serving_leave true)
  | undecodable hmain => exact absurd hserving (not_serving_leave true)
  | unknownKind hmain =>
    rw [heartbeat_loopHead hserving] at hfailed
    exact Or.inl ⟨by simp [hmain, MainPhase.Serving], hfailed⟩
  | call hmain => exact Or.inl ⟨by simp [hmain, MainPhase.Serving], hfailed⟩
  | handled hmain =>
    rw [heartbeat_loopHead hserving] at hfailed
    exact Or.inl ⟨by simp [hmain, MainPhase.Serving], hfailed⟩
  | escaped hmain => exact absurd hserving (not_serving_leave true)
  | heartbeatStart hbeat => cases hfailed
  | heartbeatReply ok hbeat =>
    cases ok with
    | true => cases hfailed
    | false => exact Or.inr rfl
  | heartbeatWake hbeat => cases hfailed
  | deleted hbeat => cases hfailed
  | deregistered hbeat => cases hfailed
  | deregisterFailed hbeat =>
    have huncancelled := hs.uncancelled hserving
    rcases hbeat with hbeat | hbeat <;> exact absurd huncancelled (by rw [hbeat]; exact id)
  | finish hmain hbeat => exact hserving.elim
  | finishFailed hmain hbeat => exact hserving.elim

theorem keepsBeating_step_iff (hs : s.Staged) (hbeats : s.KeepsBeating)
    (h : s.step load handlers a = some t) : t.KeepsBeating ↔ a ≠ .heartbeatReply false := by
  constructor
  · rintro ht rfl
    cases step_of_eq_some h with
    | heartbeatReply _ hbeat =>
      have hserving : s.main.Serving := by
        unfold Staged at hs
        split at hs <;> simp_all [MainPhase.Serving]
      exact (ht hserving).2 rfl
  · intro ha
    apply (staged_step hs h).keepsBeating
    intro hserving hfailed
    rcases failed_step hs h hserving hfailed with ⟨hbefore, hold⟩ | hreply
    · exact (hbeats hbefore).2 hold
    · exact ha hreply

/-- In any run of the two coroutines, the heartbeat loop outlives the serving worker exactly
if none of its heartbeats fails. -/
theorem keeps_beating_iff {acts : List (ProcessAction ε)}
    (hrun : Runs.run (step load handlers) start acts = some s) :
    Runs.EveryState (step load handlers) start acts KeepsBeating ↔
      .heartbeatReply false ∉ acts := by
  have hiff : Runs.EveryState (step load handlers) start acts KeepsBeating ↔
      Runs.EveryStep (step load handlers) start acts fun _ a => a ≠ .heartbeatReply false :=
    Runs.everyState_iff_everyStep (fun _ _ _ hs h => staged_step hs h)
      (fun _ _ _ hs hbeats h => keepsBeating_step_iff hs hbeats h) staged_start nofun hrun
  rw [hiff, Runs.everyStep_iff_forall_mem hrun]
  constructor
  · intro h hmem
    exact h _ hmem rfl
  · rintro h a ha rfl
    exact h ha

/-- A worker whose handler raises and whose `BLPOP` fails keeps its heartbeat. -/
theorem keeps_beating_iff_handler_raises :
    let acts : List (ProcessAction (Task Unit)) :=
      [.push ⟨"ingest_contract", "c1", (), none⟩, .registerReply true, .registerReply true,
        .heartbeatStart, .popEntry, .heartbeatReply true, .heartbeatWake, .handlerDone .exception,
        .popError]
    let handlers : Dict String Unit := Dict.empty.set "ingest_contract" ()
    ∃ s, Runs.run (step some handlers) start acts = some s ∧
      (Runs.EveryState (step some handlers) start acts KeepsBeating ↔
        .heartbeatReply false ∉ acts) := by
  intro acts handlers
  exact ⟨_, rfl, keeps_beating_iff rfl⟩

/-- One heartbeat fails while the worker waits for tasks. The worker goes on to handle a task
without a heartbeat loop. -/
theorem failed_heartbeat_ends_loop :
    let acts : List (ProcessAction (Task Unit)) :=
      [.registerReply true, .registerReply true, .heartbeatStart, .heartbeatReply false,
        .push ⟨"ingest_contract", "c1", (), none⟩, .popEntry]
    let handlers : Dict String Unit := Dict.empty.set "ingest_contract" ()
    ∃ s, Runs.run (step some handlers) start acts = some s ∧ s.calls.length = 1 ∧
      ¬s.KeepsBeating := by
  intro acts handlers
  refine ⟨_, rfl, rfl, ?_⟩
  intro h
  exact (h trivial).2 rfl

/-! ## The entries of the queue -/

/-- The call that `_handle` makes for an entry: it is well formed and its kind registered. -/
def registered (load : ε → Option (Task π)) (handlers : Dict String η) (entry : ε) :
    Option (η × Task π) :=
  (load entry).bind fun task => (handlers.get? task.kind).map fun handler => (handler, task)

/-- The worker has not left its loop unless told to, and it has called the handlers of the
well-formed entries of registered kinds among those it popped, in the order of the queue. -/
structure Unharmed (load : ε → Option (Task π)) (handlers : Dict String η)
    (s : WorkerProcess η π ε) : Prop where
  told : s.main.Left → s.stop = true
  called : s.calls = s.popped.filterMap (registered load handlers)
  in_order : s.popped <+: s.pushed

/-- Redis answers without an error, and handlers raise nothing but an `Exception`. -/
def Succeeds : ProcessAction ε → Prop
  | .registerReply ok | .heartbeatReply ok | .deregisterReply ok => ok = true
  | .popError => False
  | .handlerDone outcome => outcome ≠ .baseException
  | _ => True

/-- An entry that is popped before the stop event is set is a well-formed task. -/
def PopsWellFormed (load : ε → Option (Task π)) (s : WorkerProcess η π ε)
    (a : ProcessAction ε) : Prop :=
  a = .popEntry → s.stop = false → ∀ entry rest, s.queue = entry :: rest →
    (load entry).isSome = true

/-- What the entries have to do with the calls, whatever happens to the worker. -/
structure Accounted (load : ε → Option (Task π)) (handlers : Dict String η)
    (s : WorkerProcess η π ε) : Prop where
  pushed : s.pushed = s.popped ++ s.queue
  called : s.calls = s.popped.filterMap (registered load handlers)

/-- Nothing has happened to the queue, the calls and the stop event. -/
structure SameQueue (s t : WorkerProcess η π ε) : Prop where
  stop : t.stop = s.stop
  queue : t.queue = s.queue
  pushed : t.pushed = s.pushed
  popped : t.popped = s.popped
  calls : t.calls = s.calls

theorem Accounted.of_sameQueue (hs : s.Accounted load handlers) (h : SameQueue s t) :
    t.Accounted load handlers := by
  constructor
  · rw [h.pushed, h.popped, h.queue, hs.pushed]
  · rw [h.calls, h.popped, hs.called]

theorem sameQueue_leave (s : WorkerProcess η π ε) (raises : Bool) :
    SameQueue s (s.leave raises) := by
  unfold leave
  split <;> exact ⟨rfl, rfl, rfl, rfl, rfl⟩

theorem sameQueue_loopHead (s : WorkerProcess η π ε) : SameQueue s s.loopHead := by
  unfold loopHead
  split_ifs with hstop
  · exact sameQueue_leave s false
  · exact ⟨rfl, rfl, rfl, rfl, rfl⟩

theorem Accounted.take (hs : s.Accounted load handlers) {entry : ε} {rest : List ε}
    (hqueue : s.queue = entry :: rest) (hnone : registered load handlers entry = none) :
    (s.take entry rest).Accounted load handlers := by
  constructor
  · simp [WorkerProcess.take, hs.pushed, hqueue]
  · simp [WorkerProcess.take, hs.called, hnone]

theorem accounted_step (hs : s.Accounted load handlers)
    (h : s.step load handlers a = some t) : t.Accounted load handlers := by
  cases step_of_eq_some h with
  | push entry =>
    constructor
    · simp [hs.pushed]
    · exact hs.called
  | registered hmain =>
    have hcreated : Accounted load handlers { s with heartbeat := .created } :=
      ⟨hs.pushed, hs.called⟩
    exact hcreated.of_sameQueue (sameQueue_loopHead _)
  | timeout hmain => exact hs.of_sameQueue (sameQueue_loopHead s)
  | popError hmain => exact hs.of_sameQueue (sameQueue_leave s true)
  | @undecodable entry rest hmain hqueue hload =>
    have hnone : WorkerProcess.registered load handlers entry = none := by
      simp [WorkerProcess.registered, hload]
    exact (hs.take hqueue hnone).of_sameQueue (sameQueue_leave _ true)
  | @unknownKind entry rest task hmain hqueue hload hkind =>
    have hnone : WorkerProcess.registered load handlers entry = none := by
      simp [WorkerProcess.registered, hload, hkind]
    exact (hs.take hqueue hnone).of_sameQueue (sameQueue_loopHead _)
  | call hmain hqueue hload hkind =>
    constructor
    · simp [WorkerProcess.take, hs.pushed, hqueue]
    · simp [WorkerProcess.take, hs.called, WorkerProcess.registered, hload, hkind]
  | handled hmain => exact hs.of_sameQueue (sameQueue_loopHead s)
  | escaped hmain => exact hs.of_sameQueue (sameQueue_leave s true)
  | _ => exact ⟨hs.pushed, hs.called⟩

theorem Accounted.unharmed_iff_told (hs : s.Accounted load handlers) :
    s.Unharmed load handlers ↔ (s.main.Left → s.stop = true) := by
  constructor
  · exact Unharmed.told
  · intro htold
    exact ⟨htold, hs.called, hs.pushed ▸ List.prefix_append _ _⟩

theorem told_loopHead (s : WorkerProcess η π ε) (h : s.loopHead.main.Left) :
    s.loopHead.stop = true := by
  rw [(sameQueue_loopHead s).stop]
  unfold loopHead at h
  split_ifs at h with hstop
  · exact hstop
  · exact h.elim

theorem left_leave (s : WorkerProcess η π ε) (raises : Bool) : (s.leave raises).main.Left := by
  unfold leave
  split <;> exact trivial

theorem popsWellFormed_of_decoded {entry : ε} {rest : List ε} {task : Task π}
    (hqueue : s.queue = entry :: rest) (hload : load entry = some task) :
    s.PopsWellFormed load .popEntry := by
  intro _ _ entry' rest' hqueue'
  rw [hqueue] at hqueue'
  cases hqueue'
  rw [hload]
  rfl

/-- Among steps that succeed, only the pop of an entry that cannot be decoded takes the worker
out of its loop before the stop event. -/
theorem unharmed_step_iff (hs : s.Accounted load handlers) (ha : Succeeds a)
    (hunharmed : s.Unharmed load handlers) (h : s.step load handlers a = some t) :
    t.Unharmed load handlers ↔ s.PopsWellFormed load a := by
  rw [(accounted_step hs h).unharmed_iff_told]
  have htold := hunharmed.told
  cases step_of_eq_some h with
  | setStop => exact iff_of_true (fun _ => rfl) nofun
  | push entry => exact iff_of_true htold nofun
  | keySet hmain => exact iff_of_true nofun nofun
  | registered hmain => exact iff_of_true (told_loopHead _) nofun
  | registerFailed hmain => cases ha
  | timeout hmain => exact iff_of_true (told_loopHead s) nofun
  | popError hmain => exact ha.elim
  | @undecodable entry rest hmain hqueue hload =>
    rw [(sameQueue_leave _ true).stop]
    constructor
    · intro hstop _ hrunning
      have : s.stop = true := hstop (left_leave _ true)
      simp [this] at hrunning
    · intro hpops _
      by_contra hrunning
      have := hpops rfl (Bool.not_eq_true _ ▸ hrunning) entry rest hqueue
      simp [hload] at this
  | unknownKind hmain hqueue hload hkind =>
    exact iff_of_true (told_loopHead _) (popsWellFormed_of_decoded hqueue hload)
  | call hmain hqueue hload hkind =>
    exact iff_of_true nofun (popsWellFormed_of_decoded hqueue hload)
  | handled hmain => exact iff_of_true (told_loopHead s) nofun
  | escaped hmain => exact absurd rfl ha
  | heartbeatStart hbeat => exact iff_of_true htold nofun
  | heartbeatReply ok hbeat => exact iff_of_true htold nofun
  | heartbeatWake hbeat => exact iff_of_true htold nofun
  | deleted hbeat => exact iff_of_true htold nofun
  | deregistered hbeat => exact iff_of_true htold nofun
  | deregisterFailed hbeat => cases ha
  | finish hmain hbeat =>
    apply iff_of_true _ nofun
    intro _
    exact htold (by simp [hmain, MainPhase.Left])
  | finishFailed hmain hbeat =>
    apply iff_of_true _ nofun
    intro _
    exact htold (by simp [hmain, MainPhase.Left])

/-- As long as Redis answers and handlers raise nothing but an `Exception`, the queue cannot
bring the worker down exactly if it pops no malformed entry before it is told to stop. -/
theorem unharmed_iff {acts : List (ProcessAction ε)} (hacts : ∀ a ∈ acts, Succeeds a)
    (hrun : Runs.run (step load handlers) start acts = some s) :
    Runs.EveryState (step load handlers) start acts (Unharmed load handlers) ↔
      Runs.EveryStep (step load handlers) start acts (PopsWellFormed load) :=
  Runs.everyState_iff_everyStep_of_admissible (A := fun _ a => Succeeds a)
    (fun _ _ _ hs _ h => accounted_step hs h)
    (fun _ _ _ hs ha hunharmed h => unharmed_step_iff hs ha hunharmed h) ⟨rfl, rfl⟩
    ⟨False.elim, rfl, List.prefix_rfl⟩ (Runs.everyStep_of_forall_mem hacts) hrun

/-- A worker that pops a task of an unknown kind and one whose handler raises. -/
theorem unharmed_iff_unknown_kind :
    let acts : List (ProcessAction (Task Unit)) :=
      [.push ⟨"embed_clauses", "c1", (), none⟩, .push ⟨"ingest_contract", "c1", (), none⟩,
        .registerReply true, .registerReply true, .popEntry, .popEntry, .handlerDone .exception]
    let handlers : Dict String Unit := Dict.empty.set "ingest_contract" ()
    ∃ s, Runs.run (step some handlers) start acts = some s ∧
      (Runs.EveryState (step some handlers) start acts (Unharmed some handlers) ↔
        Runs.EveryStep (step some handlers) start acts (PopsWellFormed some)) := by
  intro acts handlers
  have hacts : ∀ a ∈ acts, Succeeds a := by
    simp [acts, Succeeds]
  exact ⟨_, rfl, unharmed_iff hacts rfl⟩

/-- An entry that is not a task ends the worker, which was never told to stop; the well-formed
task behind it stays in the queue. -/
theorem malformed_entry_ends_worker :
    let wire := "\x7b\"kind\": \"ingest_contract\", \"routing_key\": \"c1\"\x7d"
    let load : String → Option (Task Unit) := fun entry =>
      if entry = wire then some ⟨"ingest_contract", "c1", (), none⟩ else none
    let acts : List (ProcessAction String) :=
      [.push "not json", .push wire, .registerReply true, .registerReply true, .heartbeatStart,
        .popEntry]
    let handlers : Dict String Unit := Dict.empty.set "ingest_contract" ()
    (∀ a ∈ acts, Succeeds a) ∧
      ∃ s, Runs.run (step load handlers) start acts = some s ∧ s.queue = [wire] ∧
        ¬s.Unharmed load handlers := by
  intro wire load acts handlers
  refine ⟨by simp [acts, Succeeds], _, rfl, rfl, ?_⟩
  intro h
  cases h.told trivial

end LegalLens.Orchestration.WorkerProcess
