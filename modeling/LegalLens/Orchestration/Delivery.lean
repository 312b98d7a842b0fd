import LegalLens.Orchestration.ClusterInvariant

/-!
# Delivery of tasks

A worker handles a prefix of what was pushed for it, in the order of the pushes, and no
push is handled twice. The only assumption is that decoding a task gives back the task that
was encoded, for the tasks that the run dispatches.
-/

namespace LegalLens.Orchestration.Cluster

variable {π ε : Type*} {hash : String → ℕ} {dump : Task π → ε} {load : ε → Option (Task π)}

/-- The action pushes the entry: the task stands in its list at the position of the push, and
the ring of its dispatcher maps the routing key to the worker. -/
def Pushes (hash : String → ℕ) (s : Cluster π ε) (a : ClusterAction π) (entry : Entry π ε) :
    Prop :=
  a.tasks[entry.push.position]? = some entry.push.task ∧
    ∃ d, a.dispatcher = some d ∧
      TaskDispatcher.owner hash (s.registries d) entry.push.task.routingKey =
        .ok (some entry.push.worker)

theorem mem_sent_step {s u : Cluster π ε} {a : ClusterAction π} {entry : Entry π ε}
    (h : s.step hash dump load a = some u) (hentry : entry ∈ u.sent) :
    entry ∈ s.sent ∨ Pushes hash s a entry := by
  cases step_of_eq_some h with
  | refresh d scan => exact Or.inl hentry
  | monitorScan d scan => exact Or.inl hentry
  | raise hd hroute => exact Or.inl hentry
  | pop hphase hqueue => exact Or.inl hentry
  | worker hw => exact Or.inl hentry
  | serve hi => exact Or.inl ((batches_serve_perm hi).flatten.mem_iff.mp hentry)
  | issue hroute =>
    rcases mem_sent_issue.mp hentry with hentry | ⟨i, w, task, hpipe, rfl⟩
    · exact Or.inl hentry
    · obtain ⟨d, hd, htasks, howner⟩ := route_eq_some hroute
      refine Or.inr ⟨?_, d, hd, howner _ (List.mem_of_getElem? hpipe)⟩
      rw [← htasks, List.getElem?_map, hpipe]
      rfl

/-- Every entry was pushed by a dispatch of the run, judged by the state at that time. -/
theorem pushes_of_mem_sent {acts : List (ClusterAction π)} {s : Cluster π ε}
    (hrun : Runs.run (step hash dump load) start acts = some s) {entry : Entry π ε}
    (hentry : entry ∈ s.sent) :
    ∃ pre a post t, acts = pre ++ a :: post ∧
      Runs.run (step hash dump load) start pre = some t ∧ Pushes hash t a entry := by
  induction acts using List.reverseRecOn generalizing s with
  | nil =>
    cases hrun
    simp [start, sent, batches] at hentry
  | append_singleton acts a ih =>
    obtain ⟨t, ht, hstep⟩ := Runs.run_concat_eq_some.mp hrun
    rcases mem_sent_step hstep hentry with hold | hnew
    · obtain ⟨pre, b, post, t', rfl, ht', hpush⟩ := ih ht hold
      exact ⟨pre, b, post ++ [a], t', by simp, ht', hpush⟩
    · exact ⟨acts, a, [], t, rfl, ht, hnew⟩

theorem inv_run {acts : List (ClusterAction π)} {s : Cluster π ε}
    (hrun : Runs.run (step hash dump load) start acts = some s) : s.Inv dump load :=
  Runs.invariant (fun _ _ _ hs h => inv_step hs h) inv_start hrun

/-- Decoding gives back the tasks that the run dispatches. -/
def RoundTrips (dump : Task π → ε) (load : ε → Option (Task π)) (acts : List (ClusterAction π)) :
    Prop :=
  ∀ a ∈ acts, ∀ task ∈ a.tasks, load (dump task) = some task

theorem decoded_task {acts : List (ClusterAction π)} (hcodec : RoundTrips dump load acts)
    {s : Cluster π ε} (hrun : Runs.run (step hash dump load) start acts = some s) {w : String}
    {entry : Entry π ε} {task : Task π} (h : (entry, task) ∈ (s.workers w).handled) :
    task = entry.push.task := by
  have hs := inv_run hrun
  have htaken : entry ∈ (s.workers w).taken :=
    (hs.consistent w).prefix_taken.2.subset (List.mem_map_of_mem h)
  have hsent := (hs.mem_sent_of_mem_taken htaken).1
  obtain ⟨pre, a, post, t, rfl, -, htask, -⟩ := pushes_of_mem_sent hrun hsent
  have hload := hs.decoded w _ h
  rw [hs.wire entry hsent, hcodec a (by simp) _ (List.mem_of_getElem? htask)] at hload
  exact (Option.some.inj hload).symm

theorem handled_prefix {acts : List (ClusterAction π)} (hcodec : RoundTrips dump load acts)
    {s : Cluster π ε} (hrun : Runs.run (step hash dump load) start acts = some s) (w : String) :
    (s.workers w).handled <+: (s.pushedFor w).map fun entry => (entry, entry.push.task) := by
  have hs := inv_run hrun
  have hentries := (hs.consistent w).prefix_taken.2.trans (hs.taken_prefix w)
  have heq : (s.workers w).handled =
      ((s.workers w).handled.map Prod.fst).map fun entry => (entry, entry.push.task) := by
    rw [List.map_map]
    conv_lhs => rw [← List.map_id (s.workers w).handled]
    apply List.map_congr_left
    intro h hh
    exact Prod.ext rfl (decoded_task hcodec hrun hh)
  rw [heq]
  exact hentries.map _

/-- What the queues of the cluster guarantee about a run and the state it leads to. -/
structure Delivered (hash : String → ℕ) (dump : Task π → ε) (load : ε → Option (Task π))
    (acts : List (ClusterAction π)) (s : Cluster π ε) : Prop where
  /-- The tasks passed to `_handle` are the first of those pushed for the worker. -/
  fifo : ∀ w, (s.workers w).handled.map Prod.snd <+:
    (s.pushedFor w).map fun entry => entry.push.task
  /-- Pushes of one call for one worker stand in the order of the call's list. -/
  list_order : ∀ w, (s.pushedFor w).Pairwise fun x y =>
    x.push.call = y.push.call → x.push.position < y.push.position
  /-- When a push for the worker was issued, the ring of its dispatcher named the worker. -/
  routed : ∀ w, ∀ entry ∈ s.pushedFor w, entry.push.worker = w ∧
    ∃ pre a post t, acts = pre ++ a :: post ∧
      Runs.run (step hash dump load) start pre = some t ∧ Pushes hash t a entry
  /-- No push is passed to `_handle` twice, by one worker or by two. -/
  once : ∀ (v w : String) (i j : ℕ) (h k : Entry π ε × Task π),
    (s.workers v).handled[i]? = some h → (s.workers w).handled[j]? = some k →
    h.1.push.call = k.1.push.call → h.1.push.position = k.1.push.position → v = w ∧ i = j

/-- Delivery is in order and at most once, in every run. -/
theorem delivered_of_run {acts : List (ClusterAction π)} (hcodec : RoundTrips dump load acts)
    {s : Cluster π ε} (hrun : Runs.run (step hash dump load) start acts = some s) :
    Delivered hash dump load acts s where
  fifo := by
    intro w
    have hpre := handled_prefix hcodec hrun w
    have htasks := hpre.map Prod.snd
    rwa [List.map_map] at htasks
  list_order := fun w => (inv_run hrun).served_pairwise.filter _
  routed := by
    intro w entry hentry
    obtain ⟨hsent, hworker⟩ := mem_sent_of_mem_pushedFor hentry
    exact ⟨hworker, pushes_of_mem_sent hrun hsent⟩
  once := fun _ _ _ _ _ _ hi hj hcall hposition =>
    (inv_run hrun).handled_once hi hj hcall hposition

def plainJson (task : Task Unit) : String :=
  "\x7b\"kind\":\"" ++ task.kind ++ "\",\"routing_key\":\"" ++ task.routingKey ++
    "\",\"payload\":\x7b\x7d,\"task_id\":null\x7d"

/-- A batch of two tasks for the only worker, which handles both. -/
theorem delivered_of_run_batch :
    let first : Task Unit := ⟨"ingest_contract", "c1", (), none⟩
    let second : Task Unit := ⟨"ingest_contract", "c2", (), none⟩
    let load := fun text => [first, second].find? fun task => plainJson task = text
    let acts : List (ClusterAction Unit) :=
      [.refresh 0 ["worker:hb:a"], .worker "a" .start, .dispatchMany 0 [first, second],
        .worker "a" .poll, .serve 0, .pop "a", .worker "a" .decode, .worker "a" .finish,
        .worker "a" .poll, .pop "a", .worker "a" .decode]
    ∃ s, Runs.run (step (fun _ => 0) plainJson load) start acts = some s ∧
      (s.workers "a").handled.map Prod.snd = [first, second] ∧
      Delivered (fun _ => 0) plainJson load acts s := by
  intro first second load acts
  have hrun : ((Runs.run (step (fun _ => 0) plainJson load) start acts).map fun s =>
      (s.workers "a").handled.map Prod.snd) = some [first, second] := by
    decide +kernel
  obtain ⟨s, hs, hhandled⟩ := Option.map_eq_some_iff.mp hrun
  refine ⟨s, hs, hhandled, delivered_of_run ?_ hs⟩
  unfold RoundTrips
  decide

end LegalLens.Orchestration.Cluster
