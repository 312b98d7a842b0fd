import LegalLens.Orchestration.Delivery

/-!
# Queues can always be drained

Whatever has happened, dispatches that overlapped, membership that changed, workers that were
stopped or died: the commands under way can be executed and the workers that still serve can empty
their queues, by the steps of the server and of the loop alone. So the protocol has no state in
which a task of a serving worker is stuck.
-/

namespace LegalLens.Orchestration

variable {π ε : Type*}

def WorkerState.Serving (ws : WorkerState π ε) : Prop := ws.phase.Live ∧ ws.stop = false

instance (phase : Phase π ε) : Decidable phase.Live :=
  match phase with
  | .unborn | .ended => .isFalse id
  | .ready | .polling | .popped _ | .handling _ _ => .isTrue trivial

instance (ws : WorkerState π ε) : Decidable ws.Serving := inferInstanceAs (Decidable (_ ∧ _))

/-- Steps of the server and of a loop that goes on. -/
def ClusterAction.Routine : ClusterAction π → Prop
  | .serve _ | .pop _ => True
  | .worker _ action => action = .poll ∨ action = .decode ∨ action = .finish
  | _ => False

namespace Cluster

variable {hash : String → ℕ} {dump : Task π → ε} {load : ε → Option (Task π)} {s t u : Cluster π ε}
  {w : String}

structure Idle (s : Cluster π ε) (w : String) : Prop where
  queue : s.queues (workerQueueKey w) = []
  inHand : (s.workers w).phase.inHand = none

structure OnlyWorker (w : String) (s t : Cluster π ε) : Prop where
  inflight : t.inflight = s.inflight
  served : t.served = s.served
  workers : ∀ v, v ≠ w → t.workers v = s.workers v
  queues : ∀ v, v ≠ w → t.queues (workerQueueKey v) = s.queues (workerQueueKey v)

theorem OnlyWorker.refl (w : String) (s : Cluster π ε) : OnlyWorker w s s :=
  ⟨rfl, rfl, fun _ _ => rfl, fun _ _ => rfl⟩

theorem OnlyWorker.trans (h : OnlyWorker w s t) (h' : OnlyWorker w t u) : OnlyWorker w s u where
  inflight := h'.inflight.trans h.inflight
  served := h'.served.trans h.served
  workers v hv := (h'.workers v hv).trans (h.workers v hv)
  queues v hv := (h'.queues v hv).trans (h.queues v hv)

theorem OnlyWorker.sent (h : OnlyWorker w s t) : t.sent = s.sent := by
  rw [Cluster.sent, Cluster.sent, batches, batches, h.served, h.inflight]

theorem onlyWorker_setWorker (s : Cluster π ε) (w : String) (ws : WorkerState π ε) :
    OnlyWorker w s (s.setWorker w ws) :=
  ⟨rfl, rfl, fun _ hv => workers_setWorker_of_ne s hv ws, fun _ _ => rfl⟩

def weight (w : String) (s : Cluster π ε) : ℕ :=
  4 * (s.queues (workerQueueKey w)).length +
    match (s.workers w).phase with
    | .ready => 3
    | .polling => 2
    | .popped _ => 5
    | .handling _ _ => 4
    | .unborn | .ended => 0

/-- The worker serves, and the entries that were sent can be decoded. -/
structure Workable (dump : Task π → ε) (load : ε → Option (Task π)) (w : String)
    (s : Cluster π ε) : Prop where
  inv : s.Inv dump load
  decodes : ∀ entry ∈ s.sent, (load entry.wire).isSome = true
  serving : (s.workers w).Serving

theorem Workable.step (hs : s.Workable dump load w) {a : ClusterAction π}
    (h : s.step hash dump load a = some t) (hframe : OnlyWorker w s t)
    (hserving : (t.workers w).Serving) : t.Workable dump load w where
  inv := inv_step hs.inv h
  decodes entry hentry := hs.decodes entry (hframe.sent ▸ hentry)
  serving := hserving

theorem Workable.exists_of_loop (hs : s.Workable dump load w) {action : WorkerAction}
    {ws : WorkerState π ε} (haction : action = .poll ∨ action = .decode ∨ action = .finish)
    (h : (s.workers w).step load action = some ws) (hserving : ws.Serving)
    (hlt : weight w (s.setWorker w ws) < weight w s) :
    ∃ a t, a.Routine ∧ s.step hash dump load a = some t ∧ t.Workable dump load w ∧
      OnlyWorker w s t ∧ weight w t < weight w s := by
  have hstep : s.step hash dump load (.worker w action) = some (s.setWorker w ws) := by
    rw [Cluster.step, h]
    rfl
  have hframe := onlyWorker_setWorker s w ws
  exact ⟨.worker w action, _, haction, hstep,
    hs.step hstep hframe (by rwa [workers_setWorker_self]), hframe, hlt⟩

/-- A worker that has something to do can do it. -/
theorem Workable.exists_step (hs : s.Workable dump load w) (hidle : ¬s.Idle w) :
    ∃ a t, a.Routine ∧ s.step hash dump load a = some t ∧ t.Workable dump load w ∧
      OnlyWorker w s t ∧ weight w t < weight w s := by
  obtain ⟨hlive, hstop⟩ := hs.serving
  cases hphase : (s.workers w).phase with
  | unborn | ended =>
    rw [hphase] at hlive
    exact hlive.elim
  | ready =>
    have hstep : (s.workers w).step load .poll = some { s.workers w with phase := .polling } := by
      simp [WorkerState.step, hphase, hstop]
    exact hs.exists_of_loop (Or.inl rfl) hstep ⟨trivial, hstop⟩ (by simp [weight, hphase])
  | polling =>
    cases hqueue : s.queues (workerQueueKey w) with
    | nil => exact absurd ⟨hqueue, by rw [hphase]; rfl⟩ hidle
    | cons entry rest =>
      let t : Cluster π ε :=
        { s.setWorker w ((s.workers w).receive entry) with
          queues := Function.update s.queues (workerQueueKey w) rest }
      have hstep : s.step hash dump load (.pop w) = some t := by
        simp only [Cluster.step, hphase, hqueue]
        rfl
      have hworker : t.workers w = (s.workers w).receive entry := workers_setWorker_self ..
      have hframe : OnlyWorker w s t :=
        ⟨rfl, rfl, fun _ hv => workers_setWorker_of_ne s hv _, fun _ hv =>
          Function.update_of_ne (fun he => hv (workerQueueKey_injective he)) ..⟩
      have hrest : t.queues (workerQueueKey w) = rest := Function.update_self ..
      refine ⟨.pop w, t, trivial, hstep, hs.step hstep hframe ?_, hframe, ?_⟩
      · rw [hworker]
        exact ⟨trivial, hstop⟩
      · simp only [weight, hworker, hrest, hqueue, hphase, WorkerState.receive, List.length_cons]
        omega
  | popped entry =>
    have hhand : (s.workers w).phase.inHand = some entry := by
      rw [hphase]
      rfl
    have htaken := (hs.inv.consistent w).mem_taken_of_inHand hhand
    obtain ⟨task, hload⟩ := Option.isSome_iff_exists.mp
      (hs.decodes entry (hs.inv.mem_sent_of_mem_taken htaken).1)
    have hstep : (s.workers w).step load .decode = some
        { s.workers w with
          phase := .handling entry task
          handled := (s.workers w).handled ++ [(entry, task)] } := by
      simp only [WorkerState.step, hphase, hload]
    exact hs.exists_of_loop (Or.inr (Or.inl rfl)) hstep ⟨trivial, hstop⟩ (by simp [weight, hphase])
  | handling entry task =>
    have hstep : (s.workers w).step load .finish = some
        { s.workers w with
          phase := .ready
          finished := (s.workers w).finished ++ [entry] } := by
      simp only [WorkerState.step, hphase]
    exact hs.exists_of_loop (Or.inr (Or.inr rfl)) hstep ⟨trivial, hstop⟩ (by simp [weight, hphase])

/-- One worker empties its queue while nothing else moves. -/
theorem Workable.exists_idle (hash : String → ℕ) (hs : s.Workable dump load w) :
    ∃ u, Runs.Reaches (Cluster.step hash dump load) ClusterAction.Routine s u ∧
      u.Workable dump load w ∧ u.Idle w ∧ OnlyWorker w s u :=
  Runs.exists_reaches_of_weight (weight w) (OnlyWorker.refl w) (fun _ _ _ => OnlyWorker.trans)
    (fun _ ht hidle => ht.exists_step hidle) hs

theorem exists_all_idle (hash : String → ℕ) (ws : List String)
    (hs : ∀ w ∈ ws, s.Workable dump load w) :
    ∃ u, Runs.Reaches (step hash dump load) ClusterAction.Routine s u ∧
      (∀ w ∈ ws, u.Idle w ∧ (u.workers w).Serving) ∧ u.served = s.served ∧
      ∀ v, v ∉ ws → u.workers v = s.workers v ∧
        u.queues (workerQueueKey v) = s.queues (workerQueueKey v) := by
  induction ws generalizing s with
  | nil => exact ⟨s, .refl s, by simp, rfl, fun _ _ => ⟨rfl, rfl⟩⟩
  | cons w ws ih =>
    obtain ⟨t, hst, ht, hidle, hframe⟩ := (hs w List.mem_cons_self).exists_idle hash
    have hothers : ∀ v ∈ ws, t.Workable dump load v := by
      intro v hv
      refine ⟨ht.inv, ht.decodes, ?_⟩
      by_cases hvw : v = w
      · exact hvw ▸ ht.serving
      · rw [hframe.workers v hvw]
        exact (hs v (List.mem_cons_of_mem w hv)).serving
    obtain ⟨u, htu, hall, hserved, hrest⟩ := ih hothers
    refine ⟨u, hst.trans htu, ?_, hserved.trans hframe.served, ?_⟩
    · intro v hv
      by_cases hmem : v ∈ ws
      · exact hall v hmem
      · -- The worker has been idle before and was left alone.
        obtain rfl : v = w := (List.mem_cons.mp hv).resolve_right hmem
        obtain ⟨hworker, hqueue⟩ := hrest v hmem
        rw [hworker]
        exact ⟨⟨hqueue.trans hidle.queue, by rw [hworker]; exact hidle.inHand⟩, ht.serving⟩
    · intro v hv
      rw [List.mem_cons, not_or] at hv
      obtain ⟨hworker, hqueue⟩ := hrest v hv.2
      exact ⟨hworker.trans (hframe.workers v hv.1), hqueue.trans (hframe.queues v hv.1)⟩

/-- Only the order in which commands were executed may differ. -/
structure OnlyServed (s t : Cluster π ε) : Prop where
  workers : t.workers = s.workers
  sent : ∀ entry, entry ∈ t.sent ↔ entry ∈ s.sent

theorem exists_served (hash : String → ℕ) (hs : s.Inv dump load) :
    ∃ u, Runs.Reaches (step hash dump load) ClusterAction.Routine s u ∧ u.Inv dump load ∧
      u.inflight = [] ∧ OnlyServed s u := by
  have hrefl : ∀ s : Cluster π ε, OnlyServed s s := fun _ => ⟨rfl, fun _ => Iff.rfl⟩
  have htrans : ∀ s t u : Cluster π ε, OnlyServed s t → OnlyServed t u → OnlyServed s u :=
    fun _ _ _ h h' =>
      ⟨h'.workers.trans h.workers, fun entry => (h'.sent entry).trans (h.sent entry)⟩
  have hstep : ∀ s : Cluster π ε, s.Inv dump load → ¬s.inflight = [] →
      ∃ a t, a.Routine ∧ step hash dump load s a = some t ∧ t.Inv dump load ∧ OnlyServed s t ∧
        t.inflight.length < s.inflight.length := by
    intro s hs hnonempty
    obtain ⟨entries, rest, hinflight⟩ := List.exists_cons_of_ne_nil hnonempty
    have hfirst : s.inflight[0]? = some entries := by
      rw [hinflight]
      rfl
    refine ⟨.serve 0, _, trivial, by simp only [step, hfirst], hs.serve hfirst,
      ⟨rfl, fun entry => (batches_serve_perm hfirst).flatten.mem_iff⟩, ?_⟩
    simp [hinflight]
  exact Runs.exists_reaches_of_weight (fun s => s.inflight.length) hrefl htrans hstep hs

theorem Idle.mem_finished (hidle : s.Idle w) (hs : s.Inv dump load)
    (hserving : (s.workers w).Serving) {entry : Entry π ε} (h : entry ∈ s.pushedFor w) :
    entry ∈ (s.workers w).finished ∧ ∃ task, (entry, task) ∈ (s.workers w).handled := by
  have htaken : entry ∈ (s.workers w).taken := by
    rw [← hs.queued w, hidle.queue, List.append_nil] at h
    exact h
  have hconsistent := hs.consistent w
  have hinHand := hidle.inHand
  have hlive := hserving.1
  unfold WorkerState.Consistent at hconsistent
  cases hphase : (s.workers w).phase with
  | unborn | ended =>
    rw [hphase] at hlive
    exact hlive.elim
  | popped | handling =>
    rw [hphase] at hinHand
    cases hinHand
  | ready | polling =>
    rw [hphase] at hconsistent
    obtain ⟨hfinished, hhandled⟩ := hconsistent
    rw [← hhandled] at htaken
    obtain ⟨⟨x, task⟩, hmem, rfl⟩ := List.mem_map.mp htaken
    refine ⟨?_, task, hmem⟩
    rw [hfinished, ← hhandled]
    exact htaken

/-- From every reachable state, steps of the server and of the loops alone lead to a state in which
every task that was pushed to a worker that still serves has been handled. -/
theorem exists_drained {acts : List (ClusterAction π)} (hcodec : RoundTrips dump load acts)
    (hrun : Runs.run (step hash dump load) start acts = some s) :
    ∃ more u, (∀ a ∈ more, a.Routine) ∧ Runs.run (step hash dump load) s more = some u ∧
      ∀ entry ∈ s.sent, (s.workers entry.push.worker).Serving →
        (entry, entry.push.task) ∈ (u.workers entry.push.worker).handled ∧
        entry ∈ (u.workers entry.push.worker).finished := by
  have hs := inv_run hrun
  have hload : ∀ entry ∈ s.sent, load entry.wire = some entry.push.task := by
    intro entry hentry
    obtain ⟨pre, a, post, t, rfl, -, htask, -⟩ := pushes_of_mem_sent hrun hentry
    rw [hs.wire entry hentry]
    exact hcodec a (by simp) _ (List.mem_of_getElem? htask)
  obtain ⟨t, hst, ht, hinflight, hworkers, hsent⟩ := exists_served hash hs
  let ws := (s.sent.map fun entry => entry.push.worker).filter fun w => (s.workers w).Serving
  have hall : ∀ w ∈ ws, t.Workable dump load w := by
    intro w hw
    refine ⟨ht, fun entry hentry => ?_, ?_⟩
    · rw [hload entry ((hsent entry).mp hentry)]
      rfl
    · rw [hworkers]
      exact of_decide_eq_true (List.mem_filter.mp hw).2
  obtain ⟨u, htu, hidle, hserved, -⟩ := exists_all_idle hash ws hall
  obtain ⟨more, hmore, hrun'⟩ := hst.trans htu
  refine ⟨more, u, hmore, hrun', fun entry hentry hserving => ?_⟩
  have hu : u.Inv dump load := htu.invariant (fun _ _ _ => inv_step) ht
  obtain ⟨hidle, hserving'⟩ := hidle entry.push.worker
    (List.mem_filter.mpr ⟨List.mem_map_of_mem hentry, decide_eq_true hserving⟩)
  have hpushed : entry ∈ u.pushedFor entry.push.worker := by
    have hmem := (hsent entry).mpr hentry
    rw [Cluster.sent, batches, hinflight, List.append_nil, ← hserved] at hmem
    exact List.mem_filter.mpr ⟨hmem, decide_eq_true rfl⟩
  obtain ⟨hfinished, task, htask⟩ := hidle.mem_finished hu hserving' hpushed
  have hdecoded := hu.decoded _ _ htask
  rw [hload entry hentry] at hdecoded
  cases hdecoded
  exact ⟨htask, hfinished⟩

/-- A batch that is still under way, for a worker that has just started. -/
theorem exists_drained_batch :
    let first : Task Unit := ⟨"ingest_contract", "c1", (), none⟩
    let second : Task Unit := ⟨"ingest_contract", "c2", (), none⟩
    let load := fun text => [first, second].find? fun task => plainJson task = text
    let acts : List (ClusterAction Unit) :=
      [.refresh 0 ["worker:hb:a"], .worker "a" .start, .dispatchMany 0 [first, second]]
    ∃ s more u, Runs.run (step (fun _ => 0) plainJson load) start acts = some s ∧
      (s.workers "a").taken = [] ∧ (∀ a ∈ more, a.Routine) ∧
      Runs.run (step (fun _ => 0) plainJson load) s more = some u ∧
      first ∈ (u.workers "a").handled.map Prod.snd ∧
      second ∈ (u.workers "a").handled.map Prod.snd := by
  intro first second load acts
  have hrun : ((Runs.run (step (fun _ => 0) plainJson load) start acts).map fun s =>
      (s.sent.map fun entry => (entry.push.worker, entry.push.task), decide (s.workers "a").Serving,
        (s.workers "a").taken.isEmpty)) =
      some ([("a", first), ("a", second)], true, true) := by
    decide +kernel
  obtain ⟨s, hs, hstate⟩ := Option.map_eq_some_iff.mp hrun
  simp only [Prod.mk.injEq, decide_eq_true_eq, List.isEmpty_iff] at hstate
  obtain ⟨hsent, hserving, htaken⟩ := hstate
  have hcodec : RoundTrips plainJson load acts := by
    unfold RoundTrips
    decide
  obtain ⟨more, u, hmore, hu, hdrained⟩ := exists_drained hcodec hs
  have hall : ∀ task, ("a", task) ∈ [("a", first), ("a", second)] →
      task ∈ (u.workers "a").handled.map Prod.snd := by
    intro task htask
    rw [← hsent] at htask
    obtain ⟨entry, hentry, heq⟩ := List.mem_map.mp htask
    obtain ⟨hworker, rfl⟩ := Prod.mk.inj heq
    have hhandled := (hdrained entry hentry (hworker ▸ hserving)).1
    rw [hworker] at hhandled
    exact List.mem_map.mpr ⟨_, hhandled, rfl⟩
  exact ⟨s, more, u, hs, htaken, hmore, hu, hall _ (by simp), hall _ (by simp)⟩

end Cluster

end LegalLens.Orchestration
