import LegalLens.Orchestration.Delivery

/-!
# Two workers on one contract

Tasks with one routing key may sit at two workers when the ring changes between two
dispatches: nothing moves the tasks that are already queued under the old ring. If every
dispatch finds the unfinished tasks of its routing key at the worker it pushes to, no two
workers are ever inside `_handle` for one routing key.
-/

namespace LegalLens.Orchestration.Cluster

variable {π ε : Type*} {hash : String → ℕ} {dump : Task π → ε} {load : ε → Option (Task π)}

/-- No two workers are inside `_handle` for tasks with one routing key. -/
def MutualExclusion (s : Cluster π ε) : Prop :=
  ∀ v w t u, (s.workers v).phase.inHandle = some t → (s.workers w).phase.inHandle = some u →
    t.routingKey = u.routingKey → v = w

/-- The entry was sent to a worker that has not left its loop and has not finished it. -/
structure Unfinished (s : Cluster π ε) (entry : Entry π ε) : Prop where
  sent : entry ∈ s.sent
  running : ¬(s.workers entry.push.worker).phase.Ended
  pending : entry ∉ (s.workers entry.push.worker).finished

/-- Every running worker that a dispatch chooses already has all unfinished entries with the
routing key of the task. -/
def KeepsOwner (hash : String → ℕ) (s : Cluster π ε) (a : ClusterAction π) : Prop :=
  ∀ pipe, s.route hash a = some pipe → ∀ c ∈ pipe, ¬(s.workers c.1).phase.Ended →
    ∀ entry, s.Unfinished entry →
      entry.push.task.routingKey = c.2.routingKey → entry.push.worker = c.1

/-- All unfinished entries with one routing key are at one worker. -/
def OneOwner (s : Cluster π ε) : Prop :=
  ∀ x y, s.Unfinished x → s.Unfinished y →
    x.push.task.routingKey = y.push.task.routingKey → x.push.worker = y.push.worker

theorem unfinished_step {s u : Cluster π ε} {a : ClusterAction π} {entry : Entry π ε}
    (h : s.step hash dump load a = some u) (hentry : u.Unfinished entry) :
    s.Unfinished entry ∨
      ∃ pipe, s.route hash a = some pipe ∧ (entry.push.worker, entry.push.task) ∈ pipe ∧
        ¬(s.workers entry.push.worker).phase.Ended := by
  obtain ⟨hsent, hrunning, hpending⟩ := hentry
  cases step_of_eq_some h with
  | refresh d scan => exact Or.inl ⟨hsent, hrunning, hpending⟩
  | monitorScan d scan => exact Or.inl ⟨hsent, hrunning, hpending⟩
  | raise hd hroute => exact Or.inl ⟨hsent, hrunning, hpending⟩
  | serve hi =>
    exact Or.inl ⟨(batches_serve_perm hi).flatten.mem_iff.mp hsent, hrunning, hpending⟩
  | issue hroute =>
    rcases mem_sent_issue.mp hsent with hold | ⟨i, w, task, hpipe, rfl⟩
    · exact Or.inl ⟨hold, hrunning, hpending⟩
    · exact Or.inr ⟨_, hroute, List.mem_of_getElem? hpipe, hrunning⟩
  | @pop w x rest hphase hqueue =>
    refine Or.inl ⟨hsent, ?_, ?_⟩
    · rcases eq_or_ne entry.push.worker w with heq | hne
      · simp [heq, hphase, Phase.Ended]
      · simpa [hne] using hrunning
    · rcases eq_or_ne entry.push.worker w with heq | hne
      · simpa [heq, WorkerState.receive] using hpending
      · simpa [hne] using hpending
  | @worker w action ws hw =>
    refine Or.inl ⟨hsent, ?_, ?_⟩
    · rcases eq_or_ne entry.push.worker w with heq | hne
      · rw [heq, workers_setWorker_self, WorkerState.step_ended_iff hw, not_or] at hrunning
        rw [heq]
        exact hrunning.1
      · simpa [hne] using hrunning
    · rcases eq_or_ne entry.push.worker w with heq | hne
      · rw [heq, workers_setWorker_self] at hpending
        rw [heq]
        exact fun hmem => hpending ((WorkerState.step_finished hw).1.subset hmem)
      · simpa [hne] using hpending

theorem oneOwner_step {s u : Cluster π ε} {a : ClusterAction π} (hs : s.OneOwner)
    (hkeeps : s.KeepsOwner hash a) (h : s.step hash dump load a = some u) : u.OneOwner := by
  intro x y hx hy hkey
  rcases unfinished_step h hx with hx | ⟨pipe, hpipe, hxp, hxr⟩ <;>
    rcases unfinished_step h hy with hy | ⟨pipe', hpipe', hyp, hyr⟩
  · exact hs x y hx hy hkey
  · exact hkeeps pipe' hpipe' _ hyp hyr x hx hkey
  · exact (hkeeps pipe hpipe _ hxp hxr y hy hkey.symm).symm
  · obtain rfl := Option.some.inj (hpipe.symm.trans hpipe')
    obtain ⟨d, -, -, howner⟩ := route_eq_some hpipe
    have hxo := howner _ hxp
    have hyo := howner _ hyp
    dsimp only at hxo hyo
    rw [hkey, hyo] at hxo
    simpa using hxo.symm

theorem oneOwner_start : (start : Cluster π ε).OneOwner := by
  intro x y hx
  have hsent := hx.sent
  simp [start, sent, batches] at hsent

theorem Inv.unfinished_of_handling {s : Cluster π ε} (hs : s.Inv dump load) {w : String}
    {entry : Entry π ε} {task : Task π} (hphase : (s.workers w).phase = .handling entry task) :
    entry.push.worker = w ∧ (entry, task) ∈ (s.workers w).handled ∧ s.Unfinished entry := by
  have hconsistent := hs.consistent w
  unfold WorkerState.Consistent at hconsistent
  rw [hphase] at hconsistent
  obtain ⟨htaken, -, hhandled⟩ := hconsistent
  have hmem : entry ∈ (s.workers w).taken := by simp [htaken]
  obtain ⟨hsent, hworker⟩ := hs.mem_sent_of_mem_taken hmem
  refine ⟨hworker, hhandled, hsent, ?_, ?_⟩
  · simp [hworker, hphase, Phase.Ended]
  · rw [hworker]
    intro hmem
    have hpair := (hs.served_pairwise.filter _).sublist (hs.taken_prefix w).sublist
    rw [htaken] at hpair
    have := (List.pairwise_append.mp hpair).2.2 entry hmem entry (by simp) rfl
    omega

theorem mutualExclusion_of_oneOwner {acts : List (ClusterAction π)}
    (hcodec : RoundTrips dump load acts) {s : Cluster π ε}
    (hrun : Runs.run (step hash dump load) start acts = some s) (hone : s.OneOwner) :
    s.MutualExclusion := by
  have hs := inv_run hrun
  have hunfinished : ∀ w t, (s.workers w).phase.inHandle = some t →
      ∃ entry, entry.push.worker = w ∧ t = entry.push.task ∧ s.Unfinished entry := by
    intro w t ht
    unfold Phase.inHandle at ht
    split at ht <;> cases ht
    next entry hphase =>
      obtain ⟨hworker, hhandled, hentry⟩ := hs.unfinished_of_handling hphase
      exact ⟨entry, hworker, decoded_task hcodec hrun hhandled, hentry⟩
  intro v w t u ht hu hkey
  obtain ⟨x, rfl, rfl, hx⟩ := hunfinished v t ht
  obtain ⟨y, rfl, rfl, hy⟩ := hunfinished w u hu
  exact hone x y hx hy hkey

/-- In a run whose dispatches keep the owner of unfinished work, no two workers are ever
inside `_handle` for one routing key. -/
theorem mutual_exclusion_of_keepsOwner {acts : List (ClusterAction π)}
    (hcodec : RoundTrips dump load acts)
    (hkeeps : Runs.EveryStep (step hash dump load) start acts (KeepsOwner hash)) :
    Runs.EveryState (step hash dump load) start acts MutualExclusion := by
  rintro pre post rfl t ht
  have hone : t.OneOwner :=
    Runs.invariant_of_everyStep (fun _ _ _ hs hk h => oneOwner_step hs hk h) oneOwner_start
      hkeeps.of_append ht
  exact mutualExclusion_of_oneOwner (fun a ha => hcodec a (List.mem_append_left _ ha)) ht hone

/-- All entries that were sent for the routing keys of the action are at the workers that it
chooses. -/
def sentToOwner (hash : String → ℕ) (s : Cluster π ε) (a : ClusterAction π) : Bool :=
  ((s.route hash a).getD []).all fun c => s.sent.all fun entry =>
    decide (entry.push.task.routingKey = c.2.routingKey → entry.push.worker = c.1)

theorem keepsOwner_of_sentToOwner (s : Cluster π ε) (a : ClusterAction π)
    (h : s.sentToOwner hash a = true) : s.KeepsOwner hash a := by
  intro pipe hroute c hc _ entry hentry
  rw [sentToOwner, hroute] at h
  have hsent := List.all_eq_true.mp (List.all_eq_true.mp h c hc) entry hentry.sent
  exact of_decide_eq_true hsent

def firstCharacter (text : String) : ℕ := (text.toList.head?.map Char.toNat).getD 0

/-- Two workers, and a second task of a contract whose first one is still being handled: it waits
at the owner, while the other worker handles another contract. -/
theorem mutual_exclusion_of_keepsOwner_two_workers :
    let first : Task Unit := ⟨"ingest_contract", "c1", (), none⟩
    let second : Task Unit := ⟨"embed_clauses", "c1", (), none⟩
    let other : Task Unit := ⟨"ingest_contract", "a1", (), none⟩
    let load := fun text => [first, second, other].find? fun task => plainJson task = text
    let acts : List (ClusterAction Unit) :=
      [.worker "a" .start, .worker "b" .start, .refresh 0 ["worker:hb:a", "worker:hb:b"],
        .dispatch 0 first, .worker "a" .poll, .serve 0, .pop "a", .worker "a" .decode,
        .dispatch 0 second, .dispatch 0 other, .serve 1, .serve 0, .worker "b" .poll, .pop "b",
        .worker "b" .decode, .worker "a" .finish, .worker "a" .poll, .pop "a",
        .worker "a" .decode]
    (∃ s, Runs.run (step firstCharacter plainJson load) start acts = some s ∧
      (s.workers "a").phase.inHandle = some second ∧
      (s.workers "b").phase.inHandle = some other) ∧
    Runs.EveryState (step firstCharacter plainJson load) start acts MutualExclusion := by
  intro first second other load acts
  have hrun : ((Runs.run (step firstCharacter plainJson load) start acts).map fun s =>
      ((s.workers "a").phase.inHandle, (s.workers "b").phase.inHandle)) =
        some (some second, some other) := by
    decide +kernel
  have hcodec : RoundTrips plainJson load acts := by
    unfold RoundTrips
    decide
  have hchecks : Runs.checks (step firstCharacter plainJson load) (sentToOwner firstCharacter)
      start acts = true := by
    decide +kernel
  obtain ⟨s, hs, hphases⟩ := Option.map_eq_some_iff.mp hrun
  obtain ⟨ha, hb⟩ := Prod.mk.inj hphases
  exact ⟨⟨s, hs, ha, hb⟩, mutual_exclusion_of_keepsOwner hcodec
    (Runs.everyStep_of_checks keepsOwner_of_sentToOwner hchecks)⟩

/-- Worker `b` is inside `_handle` for a contract when worker `a` joins and becomes its owner;
the next task of the contract goes to `a`, which handles it at the same time. -/
theorem two_workers_in_handle :
    let first : Task Unit := ⟨"ingest_contract", "c1", (), none⟩
    let second : Task Unit := ⟨"embed_clauses", "c1", (), none⟩
    let load := fun text => [first, second].find? fun task => plainJson task = text
    ∃ s, Runs.run (step firstCharacter plainJson load) start
        [.refresh 0 ["worker:hb:b"], .worker "b" .start, .dispatch 0 first, .worker "b" .poll,
          .serve 0, .pop "b", .worker "b" .decode, .worker "a" .start,
          .refresh 0 ["worker:hb:b", "worker:hb:a"], .dispatch 0 second, .worker "a" .poll,
          .serve 0, .pop "a", .worker "a" .decode] = some s ∧
      (s.workers "b").phase.inHandle = some first ∧
      (s.workers "a").phase.inHandle = some second ∧ ¬s.MutualExclusion := by
  intro first second load
  have hrun : ((Runs.run (step firstCharacter plainJson load) start
      [.refresh 0 ["worker:hb:b"], .worker "b" .start, .dispatch 0 first, .worker "b" .poll,
        .serve 0, .pop "b", .worker "b" .decode, .worker "a" .start,
        .refresh 0 ["worker:hb:b", "worker:hb:a"], .dispatch 0 second, .worker "a" .poll,
        .serve 0, .pop "a", .worker "a" .decode]).map fun s =>
      ((s.workers "b").phase.inHandle, (s.workers "a").phase.inHandle)) =
        some (some first, some second) := by
    decide +kernel
  obtain ⟨s, hs, hphases⟩ := Option.map_eq_some_iff.mp hrun
  obtain ⟨hb, ha⟩ := Prod.mk.inj hphases
  refine ⟨s, hs, hb, ha, fun h => ?_⟩
  exact absurd (h "b" "a" first second hb ha rfl) (by decide)

end LegalLens.Orchestration.Cluster
