import LegalLens.Orchestration.ClusterInvariant

/-!
# Tasks of departed workers

A monitor that misses a worker rebuilds the ring, and nothing else: the queue of the worker
stays where it is, and so does an entry that the worker had popped. A task survives the
departure of its worker exactly if there is nothing to move.
-/

namespace LegalLens.Orchestration.Cluster

variable {π ε : Type*} {hash : String → ℕ} {dump : Task π → ε} {load : ε → Option (Task π)}

/-- Every entry pushed to a departed worker, by the time a monitor completed a scan without
the worker, is finished, or in the queue or in the hands of a live worker. -/
def NoTaskLost (s : Cluster π ε) : Prop :=
  ∀ entry ∈ s.noticed, entry ∈ (s.workers entry.push.worker).finished ∨
    ∃ w, (s.workers w).phase.Live ∧
      (entry ∈ s.queues (workerQueueKey w) ∨ (s.workers w).phase.inHand = some entry)

/-- No task is lost now, nor once any monitor completes a further scan. -/
def NoTaskLostByScan (hash : String → ℕ) (dump : Task π → ε) (load : ε → Option (Task π))
    (s : Cluster π ε) : Prop :=
  s.NoTaskLost ∧ ∀ d scan u, s.step hash dump load (.monitorScan d scan) = some u → u.NoTaskLost

/-- A worker departs only with all its entries finished, and no dispatch chooses a departed
worker. -/
def LeavesNothing (hash : String → ℕ) (load : ε → Option (Task π)) (s : Cluster π ε) :
    ClusterAction π → Prop
  | .worker w action => (s.workers w).Departs load action →
    ∀ entry ∈ s.sent, entry.push.worker = w → entry ∈ (s.workers w).finished
  | a => ∀ pipe, s.route hash a = some pipe → ∀ c ∈ pipe, ¬(s.workers c.1).phase.Ended

def Settled (s : Cluster π ε) : Prop :=
  ∀ entry ∈ s.sent, (s.workers entry.push.worker).phase.Ended →
    entry ∈ (s.workers entry.push.worker).finished

theorem Inv.mem_sent_of_mem_finished {s : Cluster π ε} (hs : s.Inv dump load) {w : String}
    {entry : Entry π ε} (h : entry ∈ (s.workers w).finished) : entry ∈ s.sent := by
  obtain ⟨hhandled, htaken⟩ := (hs.consistent w).prefix_taken
  exact (hs.mem_sent_of_mem_taken (htaken.subset (hhandled.subset h))).1

theorem Inv.worker_of_held {s : Cluster π ε} (hs : s.Inv dump load) {w : String}
    {entry : Entry π ε}
    (h : entry ∈ s.queues (workerQueueKey w) ∨ (s.workers w).phase.inHand = some entry) :
    entry.push.worker = w := by
  rcases h with h | h
  · have hmem : entry ∈ s.pushedFor w := by
      rw [← hs.queued w]
      exact List.mem_append_right _ h
    exact (mem_sent_of_mem_pushedFor hmem).2
  · exact (hs.mem_sent_of_mem_taken ((hs.consistent w).mem_taken_of_inHand h)).2

theorem not_live_of_ended {phase : Phase π ε} (h : phase.Ended) : ¬phase.Live := by
  cases phase <;> simp_all [Phase.Ended, Phase.Live]

/-- Since nothing is moved, only finished tasks of departed workers are not lost. -/
theorem Inv.noTaskLost_iff {s : Cluster π ε} (hs : s.Inv dump load) :
    s.NoTaskLost ↔ ∀ entry ∈ s.noticed, entry ∈ (s.workers entry.push.worker).finished := by
  apply forall₂_congr
  intro entry hentry
  constructor
  · rintro (h | ⟨w, hlive, hheld⟩)
    · exact h
    · have hended := (hs.noticed entry hentry).2
      rw [hs.worker_of_held hheld] at hended
      exact absurd hlive (not_live_of_ended hended)
  · exact Or.inl

theorem Inv.noTaskLost_of_settled {s : Cluster π ε} (hs : s.Inv dump load) (h : s.Settled) :
    s.NoTaskLost := by
  apply hs.noTaskLost_iff.mpr
  intro entry hentry
  obtain ⟨hsent, hended⟩ := hs.noticed entry hentry
  exact h entry hsent hended

theorem Inv.noTaskLostByScan_iff {s : Cluster π ε} (hs : s.Inv dump load) :
    NoTaskLostByScan hash dump load s ↔ s.Settled := by
  constructor
  · rintro ⟨-, hscan⟩ entry hsent hended
    have hu := inv_step hs (show s.step hash dump load (.monitorScan 0 []) = some _ from rfl)
    apply hu.noTaskLost_iff.mp (hscan 0 [] _ rfl) entry
    apply List.mem_append_right
    exact List.mem_filter.mpr ⟨hsent, by simpa using hended⟩
  · intro hsettled
    constructor
    · exact hs.noTaskLost_of_settled hsettled
    · intro d scan u hu
      have hinv := inv_step hs hu
      cases hu
      exact hinv.noTaskLost_of_settled hsettled

theorem leavesNothing_of_dispatcher {s : Cluster π ε} {a : ClusterAction π} {d : ℕ}
    (h : a.dispatcher = some d) : s.LeavesNothing hash load a ↔
      ∀ pipe, s.route hash a = some pipe → ∀ c ∈ pipe, ¬(s.workers c.1).phase.Ended := by
  cases a with
  | dispatch | dispatchMany => exact Iff.rfl
  | refresh | monitorScan | serve | pop | worker => cases h

theorem Inv.settled_issue_iff {s : Cluster π ε} (hs : s.Inv dump load) (hsettled : s.Settled)
    (pipe : List (String × Task π)) :
    (s.issue dump pipe).Settled ↔ ∀ c ∈ pipe, ¬(s.workers c.1).phase.Ended := by
  constructor
  · intro hu c hc hended
    obtain ⟨i, hi⟩ := List.getElem?_of_mem hc
    have hnew : (⟨dump c.2, ⟨s.calls, i, c.1, c.2⟩⟩ : Entry π ε) ∈ (s.workers c.1).finished :=
      hu _ (mem_sent_issue.mpr (Or.inr ⟨i, c.1, c.2, hi, rfl⟩)) hended
    have hlt := hs.calls _ (hs.mem_sent_of_mem_finished hnew)
    exact absurd hlt (lt_irrefl _)
  · intro hpipe entry hentry hended
    rcases mem_sent_issue.mp hentry with hold | ⟨i, w, task, hi, rfl⟩
    · exact hsettled entry hold hended
    · exact absurd hended (hpipe _ (List.mem_of_getElem? hi))

/-- One step keeps departed workers settled exactly if it leaves nothing behind. -/
theorem settled_step_iff {s u : Cluster π ε} {a : ClusterAction π} (hs : s.Inv dump load)
    (hsettled : s.Settled) (h : s.step hash dump load a = some u) :
    u.Settled ↔ s.LeavesNothing hash load a := by
  cases step_of_eq_some h with
  | refresh d scan => exact iff_of_true hsettled (by simp [LeavesNothing, route])
  | monitorScan d scan => exact iff_of_true hsettled (by simp [LeavesNothing, route])
  | serve hi =>
    apply iff_of_true
    · intro entry hentry
      exact hsettled entry ((batches_serve_perm hi).flatten.mem_iff.mp hentry)
    · simp [LeavesNothing, route]
  | @pop w x rest hphase hqueue =>
    apply iff_of_true
    · intro entry hentry hended
      rcases eq_or_ne entry.push.worker w with heq | hne
      · simp [heq, WorkerState.receive, Phase.Ended] at hended
      · simp only [workers_setWorker_of_ne _ hne] at hended ⊢
        exact hsettled entry hentry hended
    · simp [LeavesNothing, route]
  | raise hd hroute =>
    rw [leavesNothing_of_dispatcher hd]
    exact iff_of_true hsettled (by simp [hroute])
  | issue hroute =>
    obtain ⟨d, hd, -, -⟩ := route_eq_some hroute
    rw [leavesNothing_of_dispatcher hd, hs.settled_issue_iff hsettled]
    simp [hroute]
  | @worker w action ws hw =>
    constructor
    · intro hu hdeparts entry hentry heq
      have hended : ws.phase.Ended := (WorkerState.step_ended_iff hw).mpr (Or.inr hdeparts)
      have hmem := hu entry hentry
      rw [heq, workers_setWorker_self] at hmem
      rw [← (WorkerState.step_finished hw).2 hended]
      exact hmem hended
    · intro hleaves entry hentry hended
      rcases eq_or_ne entry.push.worker w with heq | hne
      · rw [heq, workers_setWorker_self] at hended ⊢
        apply (WorkerState.step_finished hw).1.subset
        rcases (WorkerState.step_ended_iff hw).mp hended with hold | hdeparts
        · have := hsettled entry hentry
          rw [heq] at this
          exact this hold
        · exact hleaves hdeparts entry hentry heq
      · rw [workers_setWorker_of_ne _ hne] at hended ⊢
        exact hsettled entry hentry hended

theorem settled_start : (start : Cluster π ε).Settled := by
  intro entry hentry
  simp [start, sent, batches] at hentry

/-- In a run of the cluster no task of a departed worker is lost, whatever the next scan
misses, exactly if every step leaves nothing behind. -/
theorem no_task_lost_iff {acts : List (ClusterAction π)} {s : Cluster π ε}
    (hrun : Runs.run (step hash dump load) start acts = some s) :
    Runs.EveryState (step hash dump load) start acts (NoTaskLostByScan hash dump load) ↔
      Runs.EveryStep (step hash dump load) start acts (LeavesNothing hash load) := by
  refine Runs.everyState_iff_everyStep (I := Inv dump load) (fun _ _ _ hs h => inv_step hs h) ?_
    inv_start (inv_start.noTaskLostByScan_iff.mpr settled_start) hrun
  intro t a u ht hsettled hu
  rw [(inv_step ht hu).noTaskLostByScan_iff]
  exact settled_step_iff ht (ht.noTaskLostByScan_iff.mp hsettled) hu

/-- A worker that handles its only task before it stops. -/
theorem no_task_lost_iff_finished :
    let task : Task Unit := ⟨"ingest_contract", "c1", (), none⟩
    let dump := fun task : Task Unit => task
    let acts : List (ClusterAction Unit) :=
      [.refresh 0 ["worker:hb:a"], .worker "a" .start, .dispatch 0 task, .worker "a" .poll,
        .serve 0, .pop "a", .worker "a" .decode, .worker "a" .requestStop, .worker "a" .finish,
        .worker "a" .poll, .monitorScan 0 []]
    ∃ s, Runs.run (step (fun _ => 0) dump some) start acts = some s ∧
      s.noticed.map (fun entry => entry.push.task) = [task] ∧
      (Runs.EveryState (step (fun _ => 0) dump some) start acts
          (NoTaskLostByScan (fun _ => 0) dump some) ↔
        Runs.EveryStep (step (fun _ => 0) dump some) start acts
          (LeavesNothing (fun _ => 0) some)) := by
  intro task dump acts
  have hrun : ((Runs.run (step (fun _ => 0) dump some) start acts).map fun s =>
      s.noticed.map fun entry => entry.push.task) = some [task] := by
    decide +kernel
  obtain ⟨s, hs, hnoticed⟩ := Option.map_eq_some_iff.mp hrun
  exact ⟨s, hs, hnoticed, no_task_lost_iff hs⟩

/-- A worker is told to stop while a task waits in its queue. It leaves its loop, the monitor
misses it and rebuilds the ring, and the task stays in the queue of the departed worker. -/
theorem queued_task_lost :
    let task : Task Unit := ⟨"ingest_contract", "c1", (), none⟩
    let dump := fun task : Task Unit => task
    ∃ s, Runs.run (step (fun _ => 0) dump some) start
        [.refresh 0 ["worker:hb:a"], .worker "a" .start, .dispatch 0 task, .serve 0,
          .worker "a" .requestStop, .worker "a" .poll, .monitorScan 0 []] = some s ∧
      (s.queues (workerQueueKey "a")).length = 1 ∧ ¬s.NoTaskLost := by
  intro task dump
  have hrun : ((Runs.run (step (fun _ => 0) dump some) start
      [.refresh 0 ["worker:hb:a"], .worker "a" .start, .dispatch 0 task, .serve 0,
        .worker "a" .requestStop, .worker "a" .poll, .monitorScan 0 []]).map fun s =>
      ((s.queues (workerQueueKey "a")).length, s.noticed.map fun entry => entry.push.worker,
        (s.workers "a").finished.length)) = some (1, ["a"], 0) := by
    decide +kernel
  obtain ⟨s, hs, hvalues⟩ := Option.map_eq_some_iff.mp hrun
  obtain ⟨hqueue, hrest⟩ := Prod.mk.inj hvalues
  obtain ⟨hnoticed, hfinished⟩ := Prod.mk.inj hrest
  refine ⟨s, hs, hqueue, fun h => ?_⟩
  have hinv : s.Inv dump some :=
    Runs.invariant (fun _ _ _ hs h => inv_step hs h) inv_start hs
  obtain ⟨entry, hentry, hworker⟩ : ∃ entry ∈ s.noticed, entry.push.worker = "a" := by
    have hmem : "a" ∈ s.noticed.map fun entry => entry.push.worker := by simp [hnoticed]
    simpa using hmem
  have hmem := hinv.noTaskLost_iff.mp h entry hentry
  rw [hworker, List.length_eq_zero_iff.mp hfinished] at hmem
  simp at hmem

end LegalLens.Orchestration.Cluster
