import LegalLens.Ingestion.IngestHandler
import LegalLens.Orchestration.Delivery
import LegalLens.Workers.Ownership

/-!
# The ingest driver

The driver refreshes its ring once and dispatches the contracts of a document in order, up
to a limit. A dispatch fails when the ring names no worker, and the driver then gives up.
On a ring that was refreshed with at least one worker this happens only if the id of a
worker is empty, since the guard of the dispatcher takes such an id for no worker.
-/

namespace LegalLens.Ingestion

open Orchestration Coordination Workers

variable {ε : Type*}

namespace IngestDriver

/-- How `main` ends. The last case is an error of the ring that `main` does not catch. -/
inductive Outcome where
  | systemExit (message : String)
  | aborted
  | finished
  | raised (error : LookupError)
  deriving DecidableEq, Repr

/-- The Redis lists, the counter of the loop and the lines printed. -/
structure Progress (ε : Type*) where
  queues : Queues ε
  enqueued : ℕ
  console : List String

def Progress.print (s : Progress ε) (line : String) : Progress ε :=
  { s with console := s.console ++ [line] }

/-- `limit and enqueued >= limit`. -/
def limitReached (limit : Option ℤ) (enqueued : ℕ) : Bool :=
  match limit with
  | none => false
  | some n => n ≠ 0 && n ≤ enqueued

/-- A task has been enqueued for a worker; every 25th time a line is printed. -/
def Progress.count (s : Progress ε) (wid : String) (queues : Queues ε) : Progress ε :=
  let enqueued := s.enqueued + 1
  let s := { s with queues := queues, enqueued := enqueued }
  if enqueued % 25 = 0 then
    s.print ("[cyan]enqueued " ++ toString enqueued ++ " contracts...[/cyan] (last → " ++ wid ++
      ")")
  else s

variable (hash : String → ℕ) (dump : IngestTask → ε) (registry : WorkerRegistry)
  (limit : Option ℤ)

def enqueue : List ParsedContract → Progress ε → Outcome × Progress ε
  | [], s => (.finished, s)
  | parsed :: rest, s =>
    if limitReached limit s.enqueued then (.finished, s)
    else
      match TaskDispatcher.dispatch hash dump registry (ingestTask parsed) s.queues with
      | .error (.noWorkersAvailable _) =>
        (.aborted, s.print "[red]ring went empty mid-dispatch — aborting[/red]")
      | .error (.lookup e) => (.raised e, s)
      | .ok (wid, queues) => enqueue rest (s.count wid queues)

/-- `main`, with the answers of Redis to its ping and to its scan. -/
def main (sha1 : String → BitVec 160) (ping : Bool) (scan : List String) (raw : CuadDocument)
    (queues : Queues ε) : Outcome × Progress ε :=
  if ping = false then
    (.systemExit "Redis Sentinel unreachable — is docker compose up?", ⟨queues, 0, []⟩)
  else
    let (registry, workers) := WorkerRegistry.init.refreshRing hash scan
    if workers = [] then
      (.systemExit ("No live workers found. Start at least one with " ++
        "`python scripts/ingest_worker.py` and re-run."), ⟨queues, 0, []⟩)
    else
      match enqueue hash dump registry limit (parseCuad sha1 raw) ⟨queues, 0, []⟩ with
      | (.finished, s) =>
        (.finished, s.print ("[green]enqueued " ++ toString s.enqueued ++ " contracts across " ++
          toString workers.length ++ " workers[/green]"))
      | (outcome, s) => (outcome, s)

variable {registry limit}

def selected {α : Type*} (limit : Option ℤ) (xs : List α) : List α :=
  match limit with
  | none => xs
  | some n => if n = 0 then xs else xs.take n.toNat

/-- The elements that it still takes when some have been taken. -/
def selectedFrom {α : Type*} (limit : Option ℤ) (taken : ℕ) (xs : List α) : List α :=
  match limit with
  | none => xs
  | some n => if n = 0 then xs else xs.take (n.toNat - taken)

theorem selectedFrom_zero {α : Type*} (limit : Option ℤ) (xs : List α) :
    selectedFrom limit 0 xs = selected limit xs := rfl

theorem selectedFrom_of_limitReached {α : Type*} {taken : ℕ}
    (h : limitReached limit taken = true) (xs : List α) : selectedFrom limit taken xs = [] := by
  cases limit with
  | none => cases h
  | some n =>
    obtain ⟨hn, hle⟩ : n ≠ 0 ∧ n ≤ taken := by simpa [limitReached] using h
    simp only [selectedFrom, if_neg hn, List.take_eq_nil_iff]
    omega

theorem selectedFrom_cons {α : Type*} {taken : ℕ} (h : limitReached limit taken = false) (x : α)
    (xs : List α) :
    selectedFrom limit taken (x :: xs) = x :: selectedFrom limit (taken + 1) xs := by
  cases limit with
  | none => rfl
  | some n =>
    by_cases hn : n = 0
    · simp [selectedFrom, hn]
    · have hlt : (taken : ℤ) < n := by
        simpa [limitReached, hn] using h
      obtain ⟨k, hk⟩ : ∃ k, n.toNat - taken = k + 1 := ⟨n.toNat - taken - 1, by omega⟩
      have hk' : n.toNat - (taken + 1) = k := by omega
      simp only [selectedFrom, if_neg hn, hk, hk', List.take_succ_cons]

def ownerOf (hash : String → ℕ) (registry : WorkerRegistry) (parsed : ParsedContract) :
    Option String :=
  match TaskDispatcher.owner hash registry parsed.contractId with
  | .ok o => o
  | .error _ => none

@[simp] theorem Progress.enqueued_count (s : Progress ε) (wid : String) (queues : Queues ε) :
    (s.count wid queues).enqueued = s.enqueued + 1 := by
  unfold count
  dsimp only
  split_ifs <;> rfl

@[simp] theorem Progress.queues_count (s : Progress ε) (wid : String) (queues : Queues ε) :
    (s.count wid queues).queues = queues := by
  unfold count
  dsimp only
  split_ifs <;> rfl

/-- The loop enqueues the contracts before its limit, in order, up to the first one without
an owner. -/
theorem enqueue_spec (hash : String → ℕ) (limit : Option ℤ) (hr : registry.ring.Indexed)
    (contracts : List ParsedContract) (s : Progress ε) :
    let wanted := selectedFrom limit s.enqueued contracts
    let routed := wanted.takeWhile fun parsed => (ownerOf hash registry parsed).isSome
    let result := enqueue hash dump registry limit contracts s
    result.1 = (if routed = wanted then .finished else .aborted) ∧
      result.2.enqueued = s.enqueued + routed.length ∧
      result.2.queues = TaskDispatcher.execute dump
        (routed.map fun parsed => ((ownerOf hash registry parsed).getD "", ingestTask parsed))
        s.queues := by
  induction contracts generalizing s with
  | nil =>
    have hnil : selectedFrom limit s.enqueued ([] : List ParsedContract) = [] := by
      cases limit <;> simp [selectedFrom]
    simp [hnil, enqueue, TaskDispatcher.execute]
  | cons parsed rest ih =>
    unfold enqueue
    cases hlimit : limitReached limit s.enqueued with
    | true =>
      simp [selectedFrom_of_limitReached hlimit, TaskDispatcher.execute]
    | false =>
      rw [selectedFrom_cons hlimit]
      obtain ⟨o, ho⟩ := TaskDispatcher.owner_ok_of_indexed hash hr parsed.contractId
      have howner : ownerOf hash registry parsed = o := by
        simp [ownerOf, ho]
      cases o with
      | none =>
        simp [TaskDispatcher.dispatch, ingestTask, ho, howner, Progress.print,
          TaskDispatcher.execute]
      | some wid =>
        have hdispatch : TaskDispatcher.dispatch hash dump registry (ingestTask parsed) s.queues =
            .ok (wid, s.queues.rpush (workerQueueKey wid) (dump (ingestTask parsed))) := by
          simp [TaskDispatcher.dispatch, ingestTask, ho]
        have hrest :=
          ih (s.count wid (s.queues.rpush (workerQueueKey wid) (dump (ingestTask parsed))))
        rw [Progress.enqueued_count, Progress.queues_count] at hrest
        obtain ⟨houtcome, henqueued, hqueues⟩ := hrest
        rw [hdispatch]
        simp only [Bool.false_eq_true, if_false, howner, Option.isSome_some,
          List.takeWhile_cons_of_pos, List.length_cons, List.map_cons, Option.getD_some,
          List.cons.injEq, true_and]
        refine ⟨houtcome, ?_, hqueues⟩
        rw [henqueued]
        omega

/-- On a ring that was refreshed with some worker, only an empty id is no owner. -/
theorem getWorker_of_refreshed (hash : String → ℕ) {scan : List String}
    (hscan : WorkerRegistry.listWorkers scan ≠ []) (parsed : ParsedContract) :
    let registry := (WorkerRegistry.init.refreshRing hash scan).1
    ∃ w ∈ WorkerRegistry.listWorkers scan,
      registry.ring.getWorker hash parsed.contractId = .ok (some w) ∧
        ownerOf hash registry parsed = if w = "" then none else some w := by
  intro registry
  obtain ⟨w, hw, hget⟩ := ConsistentHashRing.getWorker_replaceWorkers hash
    WorkerRegistry.init.ring (by decide) hscan parsed.contractId
  have hget' : registry.ring.getWorker hash parsed.contractId = .ok (some w) := hget
  exact ⟨w, hw, hget', by simp [ownerOf, TaskDispatcher.owner, hget']⟩

theorem ownerOf_eq_none_iff (hash : String → ℕ) {scan : List String}
    (hscan : WorkerRegistry.listWorkers scan ≠ []) (parsed : ParsedContract) :
    let registry := (WorkerRegistry.init.refreshRing hash scan).1
    ownerOf hash registry parsed = none ↔
      registry.ring.getWorker hash parsed.contractId = .ok (some "") := by
  intro registry
  obtain ⟨w, -, hget, howner⟩ := getWorker_of_refreshed hash hscan parsed
  rw [howner, hget]
  by_cases hw : w = "" <;> simp [hw]

theorem listWorkers_eq_nil_iff {scan : List String} :
    WorkerRegistry.listWorkers scan = [] ↔ scan = [] := by
  rw [← List.length_eq_zero_iff, ← List.length_eq_zero_iff]
  simp [WorkerRegistry.listWorkers, Sequences.sorted]

theorem execute_owned (dump : IngestTask → ε) {hash : String → ℕ} {registry : WorkerRegistry}
    {done : List ParsedContract} (hdone : ∀ parsed ∈ done, (ownerOf hash registry parsed).isSome)
    (queues : Queues ε) :
    let final := TaskDispatcher.execute dump
      (done.map fun parsed => ((ownerOf hash registry parsed).getD "", ingestTask parsed)) queues
    (∀ w, final (workerQueueKey w) = queues (workerQueueKey w) ++
        (done.filter fun parsed => ownerOf hash registry parsed = some w).map
          fun parsed => dump (ingestTask parsed)) ∧
      ∀ key, (∀ parsed ∈ done, ∀ w, ownerOf hash registry parsed = some w →
        key ≠ workerQueueKey w) → final key = queues key := by
  dsimp only
  constructor
  · intro w
    rw [TaskDispatcher.execute_apply, List.filter_map, List.map_map]
    congr 2
    apply List.filter_congr
    intro parsed hparsed
    obtain ⟨v, hv⟩ := Option.isSome_iff_exists.mp (hdone parsed hparsed)
    simp [hv]
  · intro key hkey
    apply TaskDispatcher.execute_of_ne
    intro c hc
    obtain ⟨parsed, hparsed, rfl⟩ := List.mem_map.mp hc
    obtain ⟨v, hv⟩ := Option.isSome_iff_exists.mp (hdone parsed hparsed)
    rw [hv]
    exact hkey parsed hparsed v hv

theorem main_of_workers (hash : String → ℕ) (dump : IngestTask → ε) (limit : Option ℤ)
    (sha1 : String → BitVec 160) {scan : List String}
    (hscan : WorkerRegistry.listWorkers scan ≠ []) (raw : CuadDocument) (queues : Queues ε) :
    let registry := (WorkerRegistry.init.refreshRing hash scan).1
    let looped := enqueue hash dump registry limit (parseCuad sha1 raw) ⟨queues, 0, []⟩
    let result := main hash dump limit sha1 true scan raw queues
    result.1 = looped.1 ∧ result.2.enqueued = looped.2.enqueued ∧
      result.2.queues = looped.2.queues := by
  intro registry looped result
  have hresult : result = match looped with
      | (.finished, s) =>
        (.finished, s.print ("[green]enqueued " ++ toString s.enqueued ++ " contracts across " ++
          toString (WorkerRegistry.listWorkers scan).length ++ " workers[/green]"))
      | (outcome, s) => (outcome, s) := by
    simp only [result, main, WorkerRegistry.refreshRing, Bool.true_eq_false, if_false]
    exact if_neg hscan
  rw [hresult]
  obtain ⟨outcome, s⟩ := looped
  cases outcome <;> exact ⟨rfl, rfl, rfl⟩

/-- What `main` does. Without an answer to its ping or without a worker it enqueues nothing.
Otherwise it enqueues contracts of the document in order, each once and for the worker that
the refreshed ring names, and it stops before its limit or the end of the document exactly
if the ring names a worker with an empty id for one of them. -/
theorem main_enqueues (hash : String → ℕ) (dump : IngestTask → ε) (limit : Option ℤ)
    (sha1 : String → BitVec 160) (ping : Bool) (scan : List String) (raw : CuadDocument)
    (queues : Queues ε) :
    let registry := (WorkerRegistry.init.refreshRing hash scan).1
    let wanted := selected limit (parseCuad sha1 raw)
    let result := main hash dump limit sha1 ping scan raw queues
    ((ping = false ∨ scan = []) ∧ (∃ message, result.1 = .systemExit message) ∧
        result.2.enqueued = 0 ∧ result.2.queues = queues) ∨
      ping = true ∧ scan ≠ [] ∧ ∃ done rest, wanted = done ++ rest ∧
        result.2.enqueued = done.length ∧
        (∀ w, result.2.queues (workerQueueKey w) = queues (workerQueueKey w) ++
          (done.filter fun parsed => ownerOf hash registry parsed = some w).map
            fun parsed => dump (ingestTask parsed)) ∧
        (∀ key, (∀ w ∈ WorkerRegistry.listWorkers scan, key ≠ workerQueueKey w) →
          result.2.queues key = queues key) ∧
        ((result.1 = .finished ∧ rest = [] ∧ ∀ parsed ∈ wanted,
            registry.ring.getWorker hash parsed.contractId ≠ .ok (some "")) ∨
          (result.1 = .aborted ∧ ∃ parsed, rest.head? = some parsed ∧
            registry.ring.getWorker hash parsed.contractId = .ok (some ""))) := by
  intro registry wanted result
  by_cases hanswer : ping = false ∨ scan = []
  · left
    refine ⟨hanswer, ?_⟩
    simp only [result, main]
    cases ping with
    | false => exact ⟨⟨_, rfl⟩, rfl, rfl⟩
    | true =>
      have hnil : WorkerRegistry.listWorkers scan = [] :=
        listWorkers_eq_nil_iff.mpr (hanswer.resolve_left (by simp))
      simp [WorkerRegistry.refreshRing, hnil]
  · right
    obtain ⟨hping, hscan⟩ := not_or.mp hanswer
    have hping : ping = true := by simpa using hping
    have hworkers : WorkerRegistry.listWorkers scan ≠ [] :=
      fun h => hscan (listWorkers_eq_nil_iff.mp h)
    have hindexed : registry.ring.Indexed := WorkerRegistry.indexed_refreshRing hash _ scan
    obtain ⟨hmain, hmainEnqueued, hmainQueues⟩ :=
      main_of_workers hash dump limit sha1 hworkers raw queues
    obtain ⟨houtcome, henqueued, hqueues⟩ :=
      enqueue_spec dump hash limit hindexed (parseCuad sha1 raw) ⟨queues, 0, []⟩
    rw [selectedFrom_zero] at houtcome henqueued hqueues
    subst hping
    have hresult : result = main hash dump limit sha1 true scan raw queues := rfl
    let owned (parsed : ParsedContract) : Bool := (ownerOf hash registry parsed).isSome
    have hsplit : wanted = wanted.takeWhile owned ++ wanted.dropWhile owned :=
      List.takeWhile_append_dropWhile.symm
    have howned : ∀ parsed ∈ wanted.takeWhile owned, (ownerOf hash registry parsed).isSome := by
      intro parsed hparsed
      exact @List.mem_takeWhile_imp _ owned _ _ hparsed
    obtain ⟨hqueue, hother⟩ := execute_owned dump howned queues
    rw [← hqueues, ← hmainQueues, ← hresult] at hqueue hother
    refine ⟨rfl, hscan, _, _, hsplit, ?_, hqueue, ?_, ?_⟩
    · rw [hresult, hmainEnqueued, henqueued, Nat.zero_add]
    · intro key hkey
      apply hother
      intro parsed hparsed w hw
      obtain ⟨v, hv, -, howner⟩ := getWorker_of_refreshed hash hworkers parsed
      have hvw : some w = if v = "" then none else some v := hw.symm.trans howner
      split_ifs at hvw
      cases hvw
      exact hkey w hv
    · cases hrest : wanted.dropWhile owned with
      | nil =>
        left
        rw [hrest, List.append_nil] at hsplit
        refine ⟨?_, rfl, ?_⟩
        · rw [hresult, hmain, houtcome, if_pos hsplit.symm]
        · intro parsed hparsed hempty
          rw [hsplit] at hparsed
          have hsome := howned parsed hparsed
          rw [(ownerOf_eq_none_iff hash hworkers parsed).mpr hempty] at hsome
          cases hsome
      | cons parsed rest =>
        right
        have hnone : owned parsed = false := by
          have hhead := List.head?_dropWhile_not owned wanted
          rw [hrest] at hhead
          simpa using hhead
        have hne : wanted.takeWhile owned ≠ wanted := by
          intro heq
          have hlength := congrArg List.length hsplit
          rw [heq, hrest, List.length_append, List.length_cons] at hlength
          omega
        refine ⟨?_, parsed, rfl, ?_⟩
        · rw [hresult, hmain, houtcome, if_neg hne]
        · apply (ownerOf_eq_none_iff hash hworkers parsed).mp
          simpa [owned] using hnone

/-- A call of `main` that finds workers with non-empty ids: the answer to its scan, the
document and the limit. -/
structure Call where
  scan : List String
  raw : CuadDocument
  limit : Option ℤ
  found : scan ≠ []
  named : "" ∉ WorkerRegistry.listWorkers scan

def Call.entries (call : Call) : List CuadEntry := selected call.limit call.raw.data

/-- What the call does to the cluster, as its dispatcher `d`. -/
def Call.actions (sha1 : String → BitVec 160) (d : ℕ) (call : Call) :
    List (ClusterAction ParsedContract) :=
  .refresh d call.scan ::
    call.entries.map fun entry => .dispatch d (ingestTask (parseEntry sha1 entry))

/-- The actions of dispatcher `d`: those that use its registry. -/
def ofDispatcher (d : ℕ) : ClusterAction ParsedContract → Bool
  | .refresh d' _ => d' = d
  | .monitorScan d' _ => d' = d
  | .dispatch d' _ => d' = d
  | .dispatchMany d' _ => d' = d
  | _ => false

section Runs

variable {load : ε → Option IngestTask} {dump : IngestTask → ε}

/-- What an action does to the registry of dispatcher `d`. -/
def registryStep (hash : String → ℕ) (d : ℕ) (registry : WorkerRegistry) :
    ClusterAction ParsedContract → WorkerRegistry
  | .refresh d' scan => if d' = d then (registry.refreshRing hash scan).1 else registry
  | .monitorScan d' scan => if d' = d then (registry.refreshRing hash scan).1 else registry
  | _ => registry

def registryAfter (hash : String → ℕ) (d : ℕ) (acts : List (ClusterAction ParsedContract)) :
    WorkerRegistry :=
  acts.foldl (registryStep hash d) .init

theorem registries_step {hash : String → ℕ} (d : ℕ) {a : ClusterAction ParsedContract}
    {s u : Cluster ParsedContract ε} (h : s.step hash dump load a = some u) :
    u.registries d = registryStep hash d (s.registries d) a := by
  have hdispatch : ∀ d', a.dispatcher = some d' →
      registryStep hash d (s.registries d) a = s.registries d := by
    intro d' hd'
    cases a <;> first | rfl | cases hd'
  cases Cluster.step_of_eq_some h with
  | refresh d' scan | monitorScan d' scan =>
    simp only [Cluster.refreshRing, Function.update_apply, registryStep, eq_comm]
    split_ifs with hd
    · rw [hd]
    · rfl
  | raise hd hroute => exact (hdispatch _ hd).symm
  | issue hroute =>
    obtain ⟨d', hd', -, -⟩ := Cluster.route_eq_some hroute
    exact (hdispatch d' hd').symm
  | serve hi => rfl
  | pop hphase hqueue => rfl
  | worker hw => rfl

theorem registries_run {hash : String → ℕ} (d : ℕ) {acts : List (ClusterAction ParsedContract)}
    {s : Cluster ParsedContract ε}
    (hrun : Runs.run (Cluster.step hash dump load) .start acts = some s) :
    s.registries d = registryAfter hash d acts := by
  induction acts using List.reverseRecOn generalizing s with
  | nil =>
    cases hrun
    rfl
  | append_singleton acts a ih =>
    obtain ⟨t, ht, hstep⟩ := Runs.run_concat_eq_some.mp hrun
    rw [registryAfter, List.foldl_concat, ← registryAfter, ← ih ht]
    exact registries_step d hstep

theorem registryAfter_filter (hash : String → ℕ) (d : ℕ)
    (acts : List (ClusterAction ParsedContract)) :
    registryAfter hash d (acts.filter (ofDispatcher d)) = registryAfter hash d acts := by
  induction acts using List.reverseRecOn with
  | nil => rfl
  | append_singleton acts a ih =>
    rw [List.filter_append, List.filter_singleton]
    cases hd : ofDispatcher d a with
    | true =>
      simp only [cond_true, registryAfter, List.foldl_concat]
      exact congrArg (fun registry => registryStep hash d registry a) ih
    | false =>
      have hstep : registryStep hash d (registryAfter hash d acts) a =
          registryAfter hash d acts := by
        cases a <;> simp_all [ofDispatcher, registryStep]
      rw [cond_false, List.append_nil, ih, registryAfter, registryAfter, List.foldl_concat]
      exact hstep.symm

theorem registryAfter_dispatches {hash : String → ℕ} {d : ℕ} (scan : List String)
    {acts : List (ClusterAction ParsedContract)} (h : ∀ a ∈ acts, ∃ task, a = .dispatch d task) :
    registryAfter hash d (.refresh d scan :: acts) =
      (WorkerRegistry.init.refreshRing hash scan).1 := by
  induction acts using List.reverseRecOn with
  | nil => simp [registryAfter, registryStep]
  | append_singleton acts a ih =>
    obtain ⟨task, rfl⟩ := h a (by simp)
    rw [← List.cons_append, registryAfter, List.foldl_concat, ← registryAfter,
      ih fun b hb => h b (List.mem_append_left _ hb)]
    rfl

/-- Between its refresh and the end of a call, a dispatcher has the ring of the refresh. -/
theorem registryAfter_of_call {hash : String → ℕ} {sha1 : String → BitVec 160} {d : ℕ}
    {call : Call} {pre post : List (ClusterAction ParsedContract)} {task : IngestTask}
    (h : (pre ++ .dispatch d task :: post).filter (ofDispatcher d) = call.actions sha1 d) :
    registryAfter hash d pre = (WorkerRegistry.init.refreshRing hash call.scan).1 := by
  rw [List.filter_append, List.filter_cons_of_pos (by simp [ofDispatcher]), Call.actions] at h
  rw [← registryAfter_filter]
  cases hpre : pre.filter (ofDispatcher d) with
  | nil =>
    rw [hpre] at h
    cases h
  | cons a before =>
    rw [hpre, List.cons_append] at h
    obtain ⟨rfl, hdispatches⟩ := List.cons.inj h
    apply registryAfter_dispatches
    intro b hb
    have hmem : b ∈ call.entries.map fun entry =>
        ClusterAction.dispatch d (ingestTask (parseEntry sha1 entry)) := by
      rw [← hdispatches]
      exact List.mem_append_left _ hb
    obtain ⟨entry, -, rfl⟩ := List.mem_map.mp hmem
    exact ⟨_, rfl⟩

/-- In every run in which dispatcher `d` does what the call does, each contract that the call
takes has been sent, whatever else is running. -/
theorem mem_sent_of_call {hash : String → ℕ} {sha1 : String → BitVec 160} {d : ℕ} {call : Call}
    {acts : List (ClusterAction ParsedContract)} {s : Cluster ParsedContract ε}
    (hrun : Runs.run (Cluster.step hash dump load) .start acts = some s)
    (hcall : acts.filter (ofDispatcher d) = call.actions sha1 d) {entry : CuadEntry}
    (hentry : entry ∈ call.entries) :
    ∃ sent ∈ s.sent, sent.push.task = ingestTask (parseEntry sha1 entry) := by
  generalize htask : ingestTask (parseEntry sha1 entry) = task
  have hmem : .dispatch d task ∈ acts.filter (ofDispatcher d) := by
    rw [hcall, ← htask]
    exact List.mem_cons_of_mem _ (List.mem_map_of_mem hentry)
  obtain ⟨pre, post, rfl⟩ := List.append_of_mem (List.mem_of_mem_filter hmem)
  obtain ⟨t, ht, hrest⟩ := Runs.exists_run_of_append hrun
  obtain ⟨u, hu, hpost⟩ := Option.bind_eq_some_iff.mp hrest
  obtain ⟨w, hw, hget, -⟩ := getWorker_of_refreshed hash
    (fun h => call.found (listWorkers_eq_nil_iff.mp h)) (parseEntry sha1 entry)
  have hname : w ≠ "" := by
    rintro rfl
    exact call.named hw
  have hroute : t.route hash (.dispatch d task) = some [(w, task)] := by
    have howner : TaskDispatcher.owner hash (t.registries d) task.routingKey = .ok (some w) := by
      rw [registries_run d ht, registryAfter_of_call hcall, ← htask]
      simp [TaskDispatcher.owner, ingestTask, hget, hname]
    simp [Cluster.route, howner]
  have hissue : u = t.issue dump [(w, task)] := by
    simp only [Cluster.step, hroute] at hu
    exact (Option.some.inj hu).symm
  have hsent : ⟨dump task, ⟨t.calls, 0, w, task⟩⟩ ∈ u.sent := by
    rw [hissue]
    exact Cluster.mem_sent_issue.mpr (Or.inr ⟨0, w, task, rfl, rfl⟩)
  have hend := Runs.invariant
    (I := fun v : Cluster ParsedContract ε =>
      (⟨dump task, ⟨t.calls, 0, w, task⟩⟩ : Entry _ _) ∈ v.sent)
    (fun _ _ _ hv h => Cluster.mem_sent_of_step h hv) hsent hpost
  exact ⟨_, hend, rfl⟩

/-- Every dispatcher of a run is a call of the driver. -/
def DrivenBy (sha1 : String → BitVec 160) (calls : ℕ → Option Call)
    (acts : List (ClusterAction ParsedContract)) : Prop :=
  ∀ d, match calls d with
    | some call => acts.filter (ofDispatcher d) = call.actions sha1 d
    | none => ∀ a ∈ acts, a.dispatcher ≠ some d

def Takes (calls : ℕ → Option Call) (entry : CuadEntry) : Prop :=
  ∃ d call, calls d = some call ∧ entry ∈ call.entries

theorem DrivenBy.exists_entry {sha1 : String → BitVec 160} {calls : ℕ → Option Call}
    {acts : List (ClusterAction ParsedContract)} (h : DrivenBy sha1 calls acts)
    {a : ClusterAction ParsedContract} (ha : a ∈ acts) {task : IngestTask}
    (htask : task ∈ a.tasks) :
    ∃ entry, Takes calls entry ∧ task = ingestTask (parseEntry sha1 entry) := by
  obtain ⟨d, hd, hof⟩ : ∃ d, a.dispatcher = some d ∧ ofDispatcher d a = true := by
    cases a with
    | dispatch d | dispatchMany d => exact ⟨d, rfl, by simp [ofDispatcher]⟩
    | _ => cases htask
  have hcalls := h d
  split at hcalls
  next call hcall =>
    have hmem : a ∈ call.actions sha1 d := by
      rw [← hcalls]
      exact List.mem_filter.mpr ⟨ha, hof⟩
    rcases List.mem_cons.mp hmem with rfl | hmem
    · cases htask
    · obtain ⟨entry, hentry, rfl⟩ := List.mem_map.mp hmem
      exact ⟨entry, ⟨d, call, hcall, hentry⟩, List.mem_singleton.mp htask⟩
  · exact absurd hd (hcalls a ha)

theorem DrivenBy.mem_sent {hash : String → ℕ} {sha1 : String → BitVec 160}
    {calls : ℕ → Option Call} {acts : List (ClusterAction ParsedContract)}
    (h : DrivenBy sha1 calls acts) {s : Cluster ParsedContract ε}
    (hrun : Runs.run (Cluster.step hash dump load) .start acts = some s) {entry : CuadEntry}
    (hentry : Takes calls entry) :
    ∃ sent ∈ s.sent, sent.push.task = ingestTask (parseEntry sha1 entry) := by
  obtain ⟨d, call, hcall, hentry⟩ := hentry
  have hcalls := h d
  rw [hcall] at hcalls
  exact mem_sent_of_call hrun hcalls hentry

end Runs

theorem mem_of_mem_selected {α : Type*} {limit : Option ℤ} {xs : List α} {x : α}
    (h : x ∈ selected limit xs) : x ∈ xs := by
  unfold selected at h
  split at h
  · exact h
  · split_ifs at h
    · exact h
    · exact List.mem_of_mem_take h

end IngestDriver

end LegalLens.Ingestion
