import LegalLens.Ingestion.SequentialIngest
import LegalLens.Orchestration.Delivery

/-!
# Ingestion by the cluster

The cluster of dispatchers, queues and workers together with the stores that the handlers of
its workers write. A task that a worker decodes begins an execution of the handler of its
kind; the executions of all workers interleave with each other and with every action of the
cluster. A handler may raise at any point, which `_handle` swallows, and a worker may crash
at any point. Whatever the ring looked like when a task was dispatched, at any time the
stores hold a part of what one process leaves that handles the same tasks in turn, and all
of it once each task has been handled without an exception.
-/

namespace LegalLens.Ingestion

open Orchestration

variable {β τ ε : Type*}

/-- The handler table of the ingest workers has one entry. -/
def IsIngest (task : IngestTask) : Prop := task.kind = "ingest_contract"

instance : DecidablePred IsIngest := fun task =>
  inferInstanceAs (Decidable (task.kind = "ingest_contract"))

/-- The execution that `_handle` begins for a task; `none` if there is no handler. -/
def handlerOf (task : IngestTask) : Option (Execution β) :=
  if IsIngest task then some ⟨task, .contract⟩ else none

/-- The cluster, the stores, the execution inside each worker, and the history of the entries
whose handler has returned without an exception. -/
structure Deployment (β τ ε : Type*) where
  cluster : Cluster ParsedContract ε
  stores : Stores β τ
  running : String → Option (Execution β)
  completed : List (Entry ParsedContract ε)

inductive DeploymentAction (τ : Type*) where
  | cluster (a : ClusterAction ParsedContract)
  /-- The handler inside a worker takes its next step, at a time. -/
  | handler (w : String) (now : τ)
  /-- The handler inside a worker raises; what it has written stays written. -/
  | raise (w : String)

def DeploymentAction.tasks : DeploymentAction τ → List IngestTask
  | .cluster a => a.tasks
  | _ => []

def DeploymentAction.cluster? : DeploymentAction τ → Option (ClusterAction ParsedContract)
  | .cluster a => some a
  | _ => none

namespace Deployment

def start : Deployment β τ ε := ⟨.start, .empty, fun _ => none, []⟩

/-- `_handle` cannot return while its handler is running. -/
def blocked (s : Deployment β τ ε) : ClusterAction ParsedContract → Bool
  | .worker w .finish =>
    match s.running w with
    | none => false
    | some ex => ex.returned.isNone
  | _ => false

def runningAfter (s : Deployment β τ ε) (c : Cluster ParsedContract ε) :
    ClusterAction ParsedContract → String → Option (Execution β)
  | .worker w .decode =>
    Function.update s.running w ((c.workers w).phase.inHandle.bind handlerOf)
  | .worker w .finish => Function.update s.running w none
  | .worker w .crash => Function.update s.running w none
  | _ => s.running

def completedAfter (s : Deployment β τ ε) :
    ClusterAction ParsedContract → List (Entry ParsedContract ε)
  | .worker w .finish =>
    match s.running w, (s.cluster.workers w).phase.inHand with
    | some _, some entry => s.completed ++ [entry]
    | _, _ => s.completed
  | _ => s.completed

variable (hash : String → ℕ) (dump : IngestTask → ε) (load : ε → Option IngestTask)
  (embed : String → List β)

def step (s : Deployment β τ ε) : DeploymentAction τ → Option (Deployment β τ ε)
  | .cluster a =>
    if s.blocked a then none
    else (s.cluster.step hash dump load a).map fun c =>
      ⟨c, s.stores, s.runningAfter c a, s.completedAfter a⟩
  | .handler w now =>
    match s.running w with
    | none => none
    | some ex => (ex.step embed now s.stores).map fun r =>
      { s with stores := r.2, running := Function.update s.running w (some r.1) }
  | .raise w =>
    match s.running w with
    | none => none
    | some _ => some { s with running := Function.update s.running w none }

inductive Step (s : Deployment β τ ε) : DeploymentAction τ → Deployment β τ ε → Prop
  | cluster {a : ClusterAction ParsedContract} {c : Cluster ParsedContract ε}
      (hfree : s.blocked a = false) (hc : s.cluster.step hash dump load a = some c) :
      Step s (.cluster a) ⟨c, s.stores, s.runningAfter c a, s.completedAfter a⟩
  | handler {w : String} {now : τ} {ex ex' : Execution β} {stores : Stores β τ}
      (hex : s.running w = some ex) (hstep : ex.step embed now s.stores = some (ex', stores)) :
      Step s (.handler w now)
        { s with stores := stores, running := Function.update s.running w (some ex') }
  | raise {w : String} {ex : Execution β} (hex : s.running w = some ex) :
      Step s (.raise w) { s with running := Function.update s.running w none }

variable {hash dump load embed}

theorem step_of_eq_some {s u : Deployment β τ ε} {a : DeploymentAction τ}
    (h : s.step hash dump load embed a = some u) : Step hash dump load embed s a u := by
  cases a with
  | cluster a =>
    simp only [step] at h
    split_ifs at h with hblocked
    obtain ⟨c, hc, rfl⟩ := Option.map_eq_some_iff.mp h
    exact .cluster (Bool.eq_false_of_not_eq_true hblocked) hc
  | handler w now =>
    simp only [step] at h
    split at h
    · cases h
    next ex hex =>
      obtain ⟨⟨ex', stores⟩, hstep, rfl⟩ := Option.map_eq_some_iff.mp h
      exact .handler hex hstep
  | raise w =>
    simp only [step] at h
    split at h
    · cases h
    next ex hex =>
      cases h
      exact .raise hex

theorem cluster_run {acts : List (DeploymentAction τ)} {s : Deployment β τ ε}
    (hrun : Runs.run (step hash dump load embed) start acts = some s) :
    Runs.run (Cluster.step hash dump load) .start (acts.filterMap DeploymentAction.cluster?) =
      some s.cluster := by
  apply Runs.run_filterMap (f := Deployment.cluster) _ hrun
  intro t a u h
  cases step_of_eq_some h with
  | cluster hfree hc => exact hc
  | handler hex hstep => rfl
  | raise hex => rfl

def ingestTasks (s : Deployment β τ ε) : List IngestTask :=
  (s.cluster.sent.map fun entry => entry.push.task).filter IsIngest

theorem mem_ingestTasks {s : Deployment β τ ε} {task : IngestTask} :
    task ∈ s.ingestTasks ↔
      IsIngest task ∧ ∃ entry ∈ s.cluster.sent, entry.push.task = task := by
  simp [ingestTasks, and_comm]

def Ingested (s : Deployment β τ ε) : Prop :=
  ∀ task ∈ s.ingestTasks, ∃ entry ∈ s.completed, entry.push.task = task

/-- An execution belongs to a worker that is inside `_handle`, and its writes are in place.
What has been completed is in the stores. -/
structure Inv (dump : IngestTask → ε) (load : ε → Option IngestTask) (embed : String → List β)
    (tasks : List IngestTask) (s : Deployment β τ ε) : Prop where
  cluster : s.cluster.Inv dump load
  known : ∀ entry ∈ s.cluster.sent, entry.push.task ∈ tasks
  sound : s.stores.Sound embed s.ingestTasks
  running : ∀ w ex, s.running w = some ex →
    IsIngest ex.task ∧ Pipeline.Wrote embed s.stores ex ∧
      ∃ entry, (s.cluster.workers w).phase = .handling entry ex.task
  completed : ∀ entry ∈ s.completed, s.stores.Has entry.push.task

section Steps

variable {tasks : List IngestTask} {s u : Deployment β τ ε}

theorem inv_start : Inv dump load embed tasks (start : Deployment β τ ε) where
  cluster := Cluster.inv_start
  known := by simp [start, Cluster.start, Cluster.sent, Cluster.batches]
  sound := Stores.sound_empty
  running := fun _ _ h => nomatch h
  completed := by simp [start]

theorem Inv.codec (hs : Inv dump load embed tasks s)
    (hcodec : ∀ task ∈ tasks, load (dump task) = some task) :
    ∀ entry ∈ s.cluster.sent, load (dump entry.push.task) = some entry.push.task :=
  fun entry hentry => hcodec _ (hs.known entry hentry)

theorem Inv.keyDetermined (hs : Inv dump load embed tasks s)
    (hkeys : KeyDetermined (tasks.filter IsIngest)) : KeyDetermined s.ingestTasks := by
  apply hkeys.mono
  intro task htask
  obtain ⟨hkind, entry, hentry, rfl⟩ := mem_ingestTasks.mp htask
  exact List.mem_filter.mpr ⟨hs.known entry hentry, decide_eq_true hkind⟩

theorem Inv.running_mem (hs : Inv dump load embed tasks s)
    (hcodec : ∀ task ∈ tasks, load (dump task) = some task) {w : String} {ex : Execution β}
    (hex : s.running w = some ex) : ex.task ∈ s.ingestTasks := by
  obtain ⟨hkind, -, entry, hphase⟩ := hs.running w ex hex
  obtain ⟨hsent, htask⟩ := hs.cluster.task_of_handling (hs.codec hcodec) hphase
  exact mem_ingestTasks.mpr ⟨hkind, entry, hsent, htask.symm⟩

theorem runningAfter_eq_some {c : Cluster ParsedContract ε} {a : ClusterAction ParsedContract}
    {w : String} {ex : Execution β} (h : s.runningAfter c a w = some ex) :
    (IsIngest ex.task ∧ ex.stage = .contract ∧
        ∃ entry, (c.workers w).phase = .handling entry ex.task) ∨
      s.running w = some ex ∧ a ≠ .worker w .finish ∧ a ≠ .worker w .crash := by
  unfold runningAfter at h
  split at h
  next v =>
    rw [Function.update_apply] at h
    split_ifs at h with hw
    · subst hw
      obtain ⟨task, htask, hhandler⟩ := Option.bind_eq_some_iff.mp h
      unfold handlerOf at hhandler
      split_ifs at hhandler with hkind
      cases hhandler
      unfold Phase.inHandle at htask
      split at htask <;> cases htask
      next entry hphase => exact Or.inl ⟨hkind, rfl, entry, hphase⟩
    · exact Or.inr ⟨h, by simp, by simp⟩
  next v =>
    rw [Function.update_apply] at h
    split_ifs at h with hw
    exact Or.inr ⟨h, by simp [Ne.symm hw], by simp⟩
  next v =>
    rw [Function.update_apply] at h
    split_ifs at h with hw
    exact Or.inr ⟨h, by simp, by simp [Ne.symm hw]⟩
  next hdecode hfinish hcrash => exact Or.inr ⟨h, hfinish w, hcrash w⟩

theorem mem_completedAfter {a : ClusterAction ParsedContract} {entry : Entry ParsedContract ε}
    (hfree : s.blocked a = false) (h : entry ∈ s.completedAfter a) :
    entry ∈ s.completed ∨ ∃ w task, s.running w = some ⟨task, .done⟩ ∧
      (s.cluster.workers w).phase.inHand = some entry := by
  unfold completedAfter at h
  split at h
  next w =>
    split at h
    next ex hand hex hhand =>
      rcases List.mem_append.mp h with h | h
      · exact Or.inl h
      · obtain rfl := List.mem_singleton.mp h
        have hreturned : ex.returned.isNone = false := by simpa [blocked, hex] using hfree
        obtain ⟨task, htask⟩ := Option.isSome_iff_exists.mp (by simpa using hreturned)
        exact Or.inr ⟨w, task, hex.trans (congrArg some (Execution.eq_of_returned htask)), hhand⟩
    · exact Or.inl h
  · exact Or.inl h

theorem ingestTasks_subset {c : Cluster ParsedContract ε} {a : ClusterAction ParsedContract}
    (hc : s.cluster.step hash dump load a = some c) {running completed} :
    ∀ task ∈ s.ingestTasks,
      task ∈ (⟨c, s.stores, running, completed⟩ : Deployment β τ ε).ingestTasks := by
  intro task htask
  obtain ⟨hkind, entry, hentry, rfl⟩ := mem_ingestTasks.mp htask
  exact mem_ingestTasks.mpr ⟨hkind, entry, Cluster.mem_sent_of_step hc hentry, rfl⟩

theorem Inv.cluster_step (hcodec : ∀ task ∈ tasks, load (dump task) = some task)
    (hs : Inv dump load embed tasks s) {a : ClusterAction ParsedContract}
    (ha : ∀ task ∈ a.tasks, task ∈ tasks) {c : Cluster ParsedContract ε}
    (hfree : s.blocked a = false) (hc : s.cluster.step hash dump load a = some c) :
    Inv dump load embed tasks ⟨c, s.stores, s.runningAfter c a, s.completedAfter a⟩ where
  cluster := Cluster.inv_step hs.cluster hc
  known := by
    intro entry hentry
    rcases Cluster.mem_sent_step hc hentry with hold | ⟨htask, -⟩
    · exact hs.known entry hold
    · exact ha _ (List.mem_of_getElem? htask)
  sound := hs.sound.mono (ingestTasks_subset hc)
  running := by
    intro w ex hex
    rcases runningAfter_eq_some hex with ⟨hkind, hstage, hphase⟩ | ⟨hold, hfinish, hcrash⟩
    · refine ⟨hkind, ?_, hphase⟩
      unfold Pipeline.Wrote
      rw [hstage]
      trivial
    · obtain ⟨hkind, hwrote, entry, hphase⟩ := hs.running w ex hold
      exact ⟨hkind, hwrote, entry, Cluster.phase_handling_of_step hc hphase hfinish hcrash⟩
  completed := by
    intro entry hentry
    rcases mem_completedAfter hfree hentry with hold | ⟨w, task, hex, hhand⟩
    · exact hs.completed entry hold
    · obtain ⟨-, hwrote, entry', hphase⟩ := hs.running w _ hex
      rw [hphase] at hhand
      cases hhand
      obtain ⟨-, htask⟩ := hs.cluster.task_of_handling (hs.codec hcodec) hphase
      dsimp only at htask
      subst htask
      exact hwrote

/-- A step of a handler fulfils its stage and keeps what all others have written. -/
theorem Inv.handler_step (hkeys : KeyDetermined (tasks.filter IsIngest))
    (hcodec : ∀ task ∈ tasks, load (dump task) = some task) (hs : Inv dump load embed tasks s)
    {w : String} {now : τ} {ex ex' : Execution β} {stores : Stores β τ}
    (hex : s.running w = some ex) (hstep : ex.step embed now s.stores = some (ex', stores)) :
    Inv dump load embed tasks
      { s with stores := stores, running := Function.update s.running w (some ex') } := by
  obtain ⟨hkind, hwrote, entry, hphase⟩ := hs.running w ex hex
  obtain ⟨htask, hsound, hgrows, hwrote'⟩ :=
    Pipeline.execution_step_spec (hs.keyDetermined hkeys) hs.sound (hs.running_mem hcodec hex)
      hwrote hstep
  constructor
  · exact hs.cluster
  · exact hs.known
  · exact hsound
  · intro v vex hv
    rcases KeyedWrites.update_eq_some_iff.mp hv with ⟨rfl, rfl⟩ | ⟨-, hv⟩
    · rw [htask]
      exact ⟨hkind, hwrote', entry, hphase⟩
    · obtain ⟨hvkind, hvwrote, hvphase⟩ := hs.running v vex hv
      exact ⟨hvkind, hvwrote.mono hgrows, hvphase⟩
  · intro entry hentry
    exact (hs.completed entry hentry).mono hgrows

theorem inv_step (hkeys : KeyDetermined (tasks.filter IsIngest))
    (hcodec : ∀ task ∈ tasks, load (dump task) = some task) (hs : Inv dump load embed tasks s)
    {a : DeploymentAction τ} (ha : ∀ task ∈ a.tasks, task ∈ tasks)
    (h : s.step hash dump load embed a = some u) : Inv dump load embed tasks u := by
  cases step_of_eq_some h with
  | cluster hfree hc => exact hs.cluster_step hcodec ha hfree hc
  | handler hex hstep => exact hs.handler_step hkeys hcodec hex hstep
  | @raise w ex hex =>
    refine ⟨hs.cluster, hs.known, hs.sound, ?_, hs.completed⟩
    intro v vex hv
    dsimp only at hv
    rw [Function.update_apply] at hv
    split_ifs at hv
    exact hs.running v vex hv

theorem inv_run (hkeys : KeyDetermined (tasks.filter IsIngest))
    (hcodec : ∀ task ∈ tasks, load (dump task) = some task) {acts : List (DeploymentAction τ)}
    (hacts : ∀ a ∈ acts, ∀ task ∈ a.tasks, task ∈ tasks)
    (hrun : Runs.run (step hash dump load embed) start acts = some s) :
    Inv dump load embed tasks s :=
  Runs.invariant_of_everyStep (P := fun _ a => ∀ task ∈ a.tasks, task ∈ tasks)
    (fun _ _ _ hs ha h => inv_step hkeys hcodec hs ha h) inv_start
    (Runs.everyStep_of_forall_mem hacts) hrun

end Steps

/-- In every reachable state the stores hold a part of what one process leaves that handles
the tasks sent so far one after the other, and all of it once each has been handled without
an exception. Timestamps apart, neither the number of workers nor changes of the ring nor
crashes, exceptions and repeated tasks make a difference. -/
theorem stores_within_sequential (sha1 : String → BitVec 160) {docs : List CuadDocument}
    {tasks : List IngestTask} (htasks : FromParser sha1 docs (tasks.filter IsIngest))
    (hsha1 : InjectiveOnHashed sha1 docs)
    (hcodec : ∀ task ∈ tasks, load (dump task) = some task) {acts : List (DeploymentAction τ)}
    (hacts : ∀ a ∈ acts, ∀ task ∈ a.tasks, task ∈ tasks) {s : Deployment β τ ε}
    (hrun : Runs.run (step hash dump load embed) start acts = some s) (now : τ) :
    s.stores.contents.Within (ingestAll embed now s.ingestTasks).contents ∧
      (s.Ingested → s.stores.contents = (ingestAll embed now s.ingestTasks).contents) := by
  have hkeys := keyDetermined_of_fromParser htasks hsha1
  have hs := inv_run hkeys hcodec hacts hrun
  have hsent := hs.keyDetermined hkeys
  obtain ⟨hsound, hcomplete⟩ := ingestAll_spec embed hsent now
  constructor
  · exact Stores.contents_within hsent hs.sound hsound hcomplete
  · intro hall
    apply Stores.contents_eq hsent hs.sound hsound _ hcomplete
    intro task htask
    obtain ⟨entry, hentry, rfl⟩ := hall task htask
    exact hs.completed entry hentry

/-- The first task is handled by a worker whose handler raises after its first step. It is
dispatched again with a second task, when the ring has changed to another worker. -/
theorem stores_within_sequential_retried :
    let first := ingestTask (parseEntry sampleSha1 sampleEntry)
    let second := ingestTask (parseEntry sampleSha1 sampleEntry')
    let embed : String → List ℕ := fun text => [text.length]
    let turn (w : String) : List (DeploymentAction ℕ) :=
      [.cluster (.worker w .poll), .cluster (.pop w), .cluster (.worker w .decode)]
    let acts : List (DeploymentAction ℕ) :=
      [.cluster (.refresh 0 ["worker:hb:a"]), .cluster (.worker "a" .start),
        .cluster (.dispatch 0 first), .cluster (.serve 0)] ++ turn "a" ++
      [.handler "a" 1, .raise "a", .cluster (.worker "a" .finish),
        .cluster (.refresh 0 ["worker:hb:b"]), .cluster (.worker "b" .start),
        .cluster (.dispatchMany 0 [first, second]), .cluster (.serve 0)] ++ turn "b" ++
      [.handler "b" 2, .handler "b" 3, .handler "b" 4, .handler "b" 5,
        .cluster (.worker "b" .finish)] ++ turn "b" ++
      [.handler "b" 6, .handler "b" 7, .handler "b" 8, .handler "b" 9,
        .cluster (.worker "b" .finish)]
    ∃ s, Runs.run (step (fun _ => 0) id some embed) start acts = some s ∧
      s.stores.contents = (ingestAll embed 0 [first, first, second]).contents := by
  intro first second embed turn acts
  have hrun : ((Runs.run (step (fun _ => 0) id some embed) start acts).map fun s =>
      (s.ingestTasks, s.completed.map fun entry => entry.push.task)) =
        some ([first, first, second], [first, second]) := by
    decide +kernel
  obtain ⟨s, hs, hvalues⟩ := Option.map_eq_some_iff.mp hrun
  obtain ⟨hsent, hcompleted⟩ := Prod.mk.inj hvalues
  have htasks : FromParser sampleSha1 [sampleDocument] ([first, second].filter IsIngest) := by
    intro t ht
    have hparsed : t ∈ (parseCuad sampleSha1 sampleDocument).map ingestTask := ht
    obtain ⟨parsed, hmem, rfl⟩ := List.mem_map.mp hparsed
    exact ⟨_, List.mem_singleton_self _, parsed, hmem, rfl⟩
  have hacts : ∀ a ∈ acts, ∀ task ∈ a.tasks, task ∈ [first, second] := by
    decide +kernel
  obtain ⟨-, hall⟩ := stores_within_sequential sampleSha1 htasks injectiveOnHashed_sample
    (fun _ _ => rfl) hacts hs 0
  rw [hsent] at hall
  refine ⟨s, hs, hall ?_⟩
  intro task htask
  have hmem : task ∈ s.completed.map fun entry => entry.push.task := by
    rw [hcompleted]
    rw [hsent] at htask
    simpa using htask
  simpa using hmem

end Deployment

end LegalLens.Ingestion
