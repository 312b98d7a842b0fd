import LegalLens.Orchestration.Cluster

/-!
# What holds in every state of the cluster

The invariant relates the commands that the server has executed, the lists, and what every
worker has popped. Executing a command moves a batch from the commands in flight to the
executed ones, so statements about all entries ever sent are kept by permutation.
-/

namespace LegalLens.Orchestration.Cluster

open Sequences

variable {π ε : Type*} {hash : String → ℕ} {dump : Task π → ε} {load : ε → Option (Task π)}

structure Inv (dump : Task π → ε) (load : ε → Option (Task π)) (s : Cluster π ε) : Prop where
  wire : ∀ entry ∈ s.sent, entry.wire = dump entry.push.task
  calls : ∀ entry ∈ s.sent, entry.push.call < s.calls
  ordered : ∀ batch ∈ s.batches, batch.Pairwise fun x y => x.push.position < y.push.position
  separate : s.batches.Pairwise fun b c => ∀ x ∈ b, ∀ y ∈ c, x.push.call ≠ y.push.call
  queued : ∀ w, (s.workers w).taken ++ s.queues (workerQueueKey w) = s.pushedFor w
  consistent : ∀ w, (s.workers w).Consistent
  decoded : ∀ w, ∀ h ∈ (s.workers w).handled, load h.1.wire = some h.2
  noticed : ∀ entry ∈ s.noticed,
    entry ∈ s.sent ∧ (s.workers entry.push.worker).phase.Ended

theorem inv_start : Inv dump load (start : Cluster π ε) where
  wire := by simp [start, sent, batches]
  calls := by simp [start, sent, batches]
  ordered := by simp [start, batches]
  separate := by simp [start, batches]
  queued := by simp [start, pushedFor, WorkerState.init]
  consistent := fun _ => WorkerState.consistent_init
  decoded := by simp [start, WorkerState.init]
  noticed := by simp [start]

theorem execute_apply (queues : Queues (Entry π ε)) (entries : List (Entry π ε)) (w : String) :
    execute queues entries (workerQueueKey w) =
      queues (workerQueueKey w) ++ entries.filter fun entry => entry.push.worker = w := by
  unfold execute
  induction entries generalizing queues with
  | nil => simp
  | cons entry entries ih =>
    rw [List.foldl_cons, ih]
    by_cases h : entry.push.worker = w
    · simp [Queues.rpush, h]
    · have hkey : workerQueueKey w ≠ workerQueueKey entry.push.worker :=
        fun he => h (workerQueueKey_injective he).symm
      simp [Queues.rpush, h, hkey]

theorem batches_issue (s : Cluster π ε) (pipe : List (String × Task π)) :
    (s.issue dump pipe).batches = s.batches ++
      [pipe.mapIdx fun i c => ⟨dump c.2, ⟨s.calls, i, c.1, c.2⟩⟩] := by
  simp [issue, batches]

theorem sent_issue (s : Cluster π ε) (pipe : List (String × Task π)) :
    (s.issue dump pipe).sent = s.sent ++
      pipe.mapIdx fun i c => ⟨dump c.2, ⟨s.calls, i, c.1, c.2⟩⟩ := by
  simp [sent, batches_issue]

theorem mem_sent_issue {s : Cluster π ε} {pipe : List (String × Task π)} {entry : Entry π ε} :
    entry ∈ (s.issue dump pipe).sent ↔ entry ∈ s.sent ∨
      ∃ i w task, pipe[i]? = some (w, task) ∧ entry = ⟨dump task, ⟨s.calls, i, w, task⟩⟩ := by
  rw [sent_issue, List.mem_append, List.mem_mapIdx]
  apply or_congr_right
  constructor
  · rintro ⟨i, hi, rfl⟩
    exact ⟨i, pipe[i].1, pipe[i].2, List.getElem?_eq_getElem hi, rfl⟩
  · rintro ⟨i, w, task, hi, rfl⟩
    obtain ⟨hlt, hget⟩ := List.getElem?_eq_some_iff.mp hi
    exact ⟨i, hlt, by rw [hget]⟩

theorem batches_serve_perm {s : Cluster π ε} {i : ℕ} {entries : List (Entry π ε)}
    (h : s.inflight[i]? = some entries) :
    (s.served ++ [entries] ++ s.inflight.eraseIdx i).Perm s.batches := by
  obtain ⟨hlt, rfl⟩ := List.getElem?_eq_some_iff.mp h
  rw [List.append_assoc, List.singleton_append]
  exact (List.getElem_cons_eraseIdx_perm hlt).append_left s.served

theorem Inv.issue {s : Cluster π ε} (hs : s.Inv dump load) (pipe : List (String × Task π)) :
    (s.issue dump pipe).Inv dump load where
  wire := by
    intro entry hentry
    rcases mem_sent_issue.mp hentry with hentry | ⟨i, w, task, -, rfl⟩
    · exact hs.wire entry hentry
    · rfl
  calls := by
    intro entry hentry
    rcases mem_sent_issue.mp hentry with hentry | ⟨i, w, task, -, rfl⟩
    · exact (hs.calls entry hentry).trans (Nat.lt_succ_self _)
    · exact Nat.lt_succ_self _
  ordered := by
    intro batch hbatch
    rw [batches_issue, List.mem_append, List.mem_singleton] at hbatch
    rcases hbatch with hbatch | rfl
    · exact hs.ordered batch hbatch
    · rw [List.pairwise_iff_getElem]
      intro i j hi hj hij
      simpa using hij
  separate := by
    rw [batches_issue]
    refine List.pairwise_append.mpr ⟨hs.separate, by simp, ?_⟩
    intro b hb c hc x hx y hy
    obtain rfl := List.mem_singleton.mp hc
    obtain ⟨i, hi, rfl⟩ := List.mem_mapIdx.mp hy
    exact (hs.calls x (List.mem_flatten.mpr ⟨b, hb, hx⟩)).ne
  queued := hs.queued
  consistent := hs.consistent
  decoded := hs.decoded
  noticed := by
    intro entry hentry
    obtain ⟨hsent, hended⟩ := hs.noticed entry hentry
    exact ⟨mem_sent_issue.mpr (Or.inl hsent), hended⟩

theorem Inv.serve {s : Cluster π ε} (hs : s.Inv dump load) {i : ℕ} {entries : List (Entry π ε)}
    (h : s.inflight[i]? = some entries) :
    Inv dump load
      { s with
        queues := execute s.queues entries
        inflight := s.inflight.eraseIdx i
        served := s.served ++ [entries] } where
  wire := fun entry hentry => hs.wire entry ((batches_serve_perm h).flatten.mem_iff.mp hentry)
  calls := fun entry hentry => hs.calls entry ((batches_serve_perm h).flatten.mem_iff.mp hentry)
  ordered := fun batch hbatch => hs.ordered batch ((batches_serve_perm h).mem_iff.mp hbatch)
  separate := by
    apply (batches_serve_perm h).symm.pairwise hs.separate
    intro b c hbc x hx y hy
    exact (hbc y hy x hx).symm
  queued := by
    intro w
    dsimp only
    rw [execute_apply, ← List.append_assoc, hs.queued w]
    simp [pushedFor]
  consistent := hs.consistent
  decoded := hs.decoded
  noticed := by
    intro entry hentry
    obtain ⟨hsent, hended⟩ := hs.noticed entry hentry
    exact ⟨(batches_serve_perm h).flatten.mem_iff.mpr hsent, hended⟩

theorem forall_workers_setWorker {s : Cluster π ε} {P : WorkerState π ε → Prop}
    (hs : ∀ v, P (s.workers v)) {w : String} {ws : WorkerState π ε} (hw : P ws) (v : String) :
    P ((s.setWorker w ws).workers v) := by
  rcases eq_or_ne v w with rfl | hne
  · rwa [workers_setWorker_self]
  · simpa [hne] using hs v

theorem Inv.pop {s : Cluster π ε} (hs : s.Inv dump load) {w : String} {entry : Entry π ε}
    {rest : List (Entry π ε)} (hphase : (s.workers w).phase = .polling)
    (hqueue : s.queues (workerQueueKey w) = entry :: rest) :
    Inv dump load
      { s.setWorker w ((s.workers w).receive entry) with
        queues := Function.update s.queues (workerQueueKey w) rest } where
  wire := hs.wire
  calls := hs.calls
  ordered := hs.ordered
  separate := hs.separate
  queued := by
    intro v
    have hv := hs.queued v
    unfold pushedFor at hv ⊢
    rcases eq_or_ne v w with rfl | hne
    · rw [hqueue] at hv
      simpa [WorkerState.receive] using hv
    · have hkey : workerQueueKey v ≠ workerQueueKey w :=
        fun he => hne (workerQueueKey_injective he)
      simpa [hne, hkey] using hv
  consistent := forall_workers_setWorker hs.consistent
    (WorkerState.receive_consistent (hs.consistent w) hphase entry)
  decoded := forall_workers_setWorker
    (P := fun ws => ∀ k ∈ ws.handled, load k.1.wire = some k.2) hs.decoded (hs.decoded w)
  noticed := by
    intro x hx
    obtain ⟨hsent, hended⟩ := hs.noticed x hx
    refine ⟨hsent, ?_⟩
    rcases eq_or_ne x.push.worker w with heq | hne
    · rw [heq, hphase] at hended
      exact hended.elim
    · simpa [hne] using hended

theorem Inv.worker {s : Cluster π ε} (hs : s.Inv dump load) {w : String} {action : WorkerAction}
    {ws : WorkerState π ε} (h : (s.workers w).step load action = some ws) :
    (s.setWorker w ws).Inv dump load where
  wire := hs.wire
  calls := hs.calls
  ordered := hs.ordered
  separate := hs.separate
  queued := by
    intro v
    rcases eq_or_ne v w with rfl | hne
    · simpa [WorkerState.step_taken h] using hs.queued v
    · simpa [hne] using hs.queued v
  consistent := forall_workers_setWorker hs.consistent
    (WorkerState.step_consistent (hs.consistent w) h)
  decoded := by
    apply forall_workers_setWorker
      (P := fun ws => ∀ k ∈ ws.handled, load k.1.wire = some k.2) hs.decoded
    rcases WorkerState.step_handled h with heq | ⟨entry, task, hload, heq⟩
    · rw [heq]
      exact hs.decoded w
    · rw [heq]
      intro k hk
      rcases List.mem_append.mp hk with hk | hk
      · exact hs.decoded w k hk
      · obtain rfl := List.mem_singleton.mp hk
        exact hload
  noticed := by
    intro x hx
    obtain ⟨hsent, hended⟩ := hs.noticed x hx
    refine ⟨hsent, ?_⟩
    rcases eq_or_ne x.push.worker w with heq | hne
    · rw [heq] at hended ⊢
      rw [workers_setWorker_self]
      exact (WorkerState.step_ended_iff h).mpr (Or.inl hended)
    · simpa [hne] using hended

theorem inv_step {s u : Cluster π ε} {a : ClusterAction π} (hs : s.Inv dump load)
    (h : s.step hash dump load a = some u) : u.Inv dump load := by
  cases step_of_eq_some h with
  | refresh d scan =>
    exact ⟨hs.wire, hs.calls, hs.ordered, hs.separate, hs.queued, hs.consistent, hs.decoded,
      hs.noticed⟩
  | monitorScan d scan =>
    refine ⟨hs.wire, hs.calls, hs.ordered, hs.separate, hs.queued, hs.consistent, hs.decoded, ?_⟩
    intro entry hentry
    rcases List.mem_append.mp hentry with hentry | hentry
    · exact hs.noticed entry hentry
    · obtain ⟨hsent, hmissed⟩ := List.mem_filter.mp hentry
      exact ⟨hsent, (of_decide_eq_true hmissed).1⟩
  | raise hd hroute => exact hs
  | issue hroute => exact hs.issue _
  | serve hi => exact hs.serve hi
  | pop hphase hqueue => exact hs.pop hphase hqueue
  | worker hw => exact hs.worker hw

/-- The executed entries, in the order of execution: two of one call are in list order. -/
theorem Inv.served_pairwise {s : Cluster π ε} (hs : s.Inv dump load) :
    s.served.flatten.Pairwise fun x y =>
      x.push.call = y.push.call → x.push.position < y.push.position := by
  obtain ⟨hserved, -, -⟩ := List.pairwise_append.mp hs.separate
  rw [List.pairwise_flatten]
  constructor
  · intro batch hbatch
    apply (hs.ordered batch (List.mem_append_left _ hbatch)).imp
    intro x y hlt _
    exact hlt
  · exact hserved.imp fun hne x hx y hy heq => absurd heq (hne x hx y hy)

theorem mem_sent_of_mem_pushedFor {s : Cluster π ε} {w : String} {entry : Entry π ε}
    (h : entry ∈ s.pushedFor w) : entry ∈ s.sent ∧ entry.push.worker = w := by
  obtain ⟨hserved, hworker⟩ := List.mem_filter.mp h
  refine ⟨?_, of_decide_eq_true hworker⟩
  rw [sent, batches, List.flatten_append]
  exact List.mem_append_left _ hserved

/-- What a worker popped is the beginning of what was pushed for it. -/
theorem Inv.taken_prefix {s : Cluster π ε} (hs : s.Inv dump load) (w : String) :
    (s.workers w).taken <+: s.pushedFor w := by
  rw [← hs.queued w]
  exact List.prefix_append _ _

theorem not_ordered {x y : Entry π ε} (hcall : x.push.call = y.push.call)
    (hposition : x.push.position = y.push.position) :
    ¬(x.push.call = y.push.call → x.push.position < y.push.position) := by
  intro hlt
  have := hlt hcall
  omega

theorem Inv.served_unique {s : Cluster π ε} (hs : s.Inv dump load) {x y : Entry π ε}
    (hx : x ∈ s.served.flatten) (hy : y ∈ s.served.flatten)
    (hcall : x.push.call = y.push.call) (hposition : x.push.position = y.push.position) :
    x = y := by
  obtain ⟨i, hi⟩ := List.getElem?_of_mem hx
  obtain ⟨j, hj⟩ := List.getElem?_of_mem hy
  have hij : i = j := index_eq_of_pairwise hs.served_pairwise hi hj
    (not_ordered hcall hposition) (not_ordered hcall.symm hposition.symm)
  rw [hij, hj] at hi
  exact (Option.some.inj hi).symm

theorem Inv.mem_sent_of_mem_taken {s : Cluster π ε} (hs : s.Inv dump load) {w : String}
    {entry : Entry π ε} (h : entry ∈ (s.workers w).taken) :
    entry ∈ s.sent ∧ entry.push.worker = w :=
  mem_sent_of_mem_pushedFor ((hs.taken_prefix w).subset h)

theorem Inv.getElem?_pushedFor {s : Cluster π ε} (hs : s.Inv dump load) {w : String} {i : ℕ}
    {h : Entry π ε × Task π} (hi : (s.workers w).handled[i]? = some h) :
    (s.pushedFor w)[i]? = some h.1 := by
  obtain ⟨rest, hrest⟩ := (hs.consistent w).prefix_taken.2.trans (hs.taken_prefix w)
  have hfst : ((s.workers w).handled.map Prod.fst)[i]? = some h.1 := by
    rw [List.getElem?_map, hi]
    rfl
  rw [← hrest, List.getElem?_append_left (List.getElem?_eq_some_iff.mp hfst).1, hfst]

/-- No push is passed to `_handle` twice, by one worker or by two. -/
theorem Inv.handled_once {s : Cluster π ε} (hs : s.Inv dump load) {v w : String} {i j : ℕ}
    {h k : Entry π ε × Task π} (hi : (s.workers v).handled[i]? = some h)
    (hj : (s.workers w).handled[j]? = some k) (hcall : h.1.push.call = k.1.push.call)
    (hposition : h.1.push.position = k.1.push.position) : v = w ∧ i = j := by
  have hh := hs.getElem?_pushedFor hi
  have hk := hs.getElem?_pushedFor hj
  obtain ⟨hhs, hhv⟩ := List.mem_filter.mp (List.mem_of_getElem? hh)
  obtain ⟨hks, hkw⟩ := List.mem_filter.mp (List.mem_of_getElem? hk)
  have heq := hs.served_unique hhs hks hcall hposition
  obtain rfl : v = w := by
    rw [← of_decide_eq_true hhv, ← of_decide_eq_true hkw, heq]
  constructor
  · rfl
  · exact index_eq_of_pairwise (hs.served_pairwise.filter _) hh hk
      (not_ordered hcall hposition) (not_ordered hcall.symm hposition.symm)

theorem mem_sent_of_step {s u : Cluster π ε} {a : ClusterAction π}
    (h : s.step hash dump load a = some u) {entry : Entry π ε} (hentry : entry ∈ s.sent) :
    entry ∈ u.sent := by
  cases step_of_eq_some h with
  | serve hi => exact (batches_serve_perm hi).flatten.mem_iff.mpr hentry
  | issue hroute => exact mem_sent_issue.mpr (Or.inl hentry)
  | _ => exact hentry

theorem phase_handling_of_step {s u : Cluster π ε} {a : ClusterAction π} {w : String}
    (h : s.step hash dump load a = some u) {entry : Entry π ε} {task : Task π}
    (hphase : (s.workers w).phase = .handling entry task) (hfinish : a ≠ .worker w .finish)
    (hcrash : a ≠ .worker w .crash) : (u.workers w).phase = .handling entry task := by
  cases step_of_eq_some h with
  | @pop v other rest hpolling hqueue =>
    have hne : w ≠ v := by
      rintro rfl
      rw [hphase] at hpolling
      cases hpolling
    rw [← hphase]
    exact congrArg WorkerState.phase (workers_setWorker_of_ne s hne _)
  | @worker v action ws hw =>
    rcases eq_or_ne w v with rfl | hne
    · rw [workers_setWorker_self]
      apply WorkerState.step_handling hw hphase
      · rintro rfl
        exact hfinish rfl
      · rintro rfl
        exact hcrash rfl
    · rw [workers_setWorker_of_ne s hne]
      exact hphase
  | _ => exact hphase

theorem Inv.task_of_handling {s : Cluster π ε} (hs : s.Inv dump load)
    (hcodec : ∀ entry ∈ s.sent, load (dump entry.push.task) = some entry.push.task) {w : String}
    {entry : Entry π ε} {task : Task π} (hphase : (s.workers w).phase = .handling entry task) :
    entry ∈ s.sent ∧ task = entry.push.task := by
  have hconsistent := hs.consistent w
  have htaken : entry ∈ (s.workers w).taken :=
    hconsistent.mem_taken_of_inHand (by rw [hphase]; rfl)
  have hsent := (hs.mem_sent_of_mem_taken htaken).1
  unfold WorkerState.Consistent at hconsistent
  rw [hphase] at hconsistent
  have hload := hs.decoded w _ hconsistent.2.2
  rw [hs.wire entry hsent, hcodec entry hsent] at hload
  exact ⟨hsent, (Option.some.inj hload).symm⟩

end LegalLens.Orchestration.Cluster
