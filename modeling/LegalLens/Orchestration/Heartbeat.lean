import LegalLens.Coordination.WorkerRegistry
import LegalLens.Library.Text

/-!
# The heartbeat monitor

The monitor refreshes the ring at intervals and compares the worker list with the one it
saw last. The lists are sorted but keep the repetitions of a scan, so two scans of one set
of workers may give different lists.
-/

namespace LegalLens.Orchestration

open Coordination WorkerRegistry Sequences

/-- The registry and the local variable `last_workers` of `run`. -/
structure HeartbeatMonitor where
  registry : WorkerRegistry
  lastWorkers : List String

namespace HeartbeatMonitor

def start (registry : WorkerRegistry) : HeartbeatMonitor := ⟨registry, []⟩

variable (hash : String → ℕ)

/-- One iteration of the loop, with the list that `on_change` is called with, if it is. -/
def round (m : HeartbeatMonitor) (scan : List String) : HeartbeatMonitor × Option (List String) :=
  let (registry, workers) := m.registry.refreshRing hash scan
  if workers ≠ m.lastWorkers then (⟨registry, workers⟩, some workers)
  else (⟨registry, m.lastWorkers⟩, none)

/-- What happens to `on_change` after each scan. -/
def run (m : HeartbeatMonitor) : List (List String) → List (Option (List String))
  | [] => []
  | scan :: scans =>
    let (m, change) := m.round hash scan
    change :: run m scans

/-- The callback is made if and only if the set of workers has changed, and then with each
worker of the new set once. -/
structure CallbackExact (before live : Finset String) (change : Option (List String)) : Prop where
  called : change.isSome = true ↔ live ≠ before
  once : ∀ workers, change = some workers → workers.Nodup
  members : ∀ workers, change = some workers → ∀ w, w ∈ workers ↔ w ∈ live

variable {hash}

theorem nodup_listWorkers_iff {live : Finset String} {scan : List String} (h : Scans live scan) :
    (listWorkers scan).Nodup ↔ scan.Nodup := by
  have hperm : (listWorkers scan).Perm (scan.map workerOfKey) := List.perm_insertionSort _ _
  rw [hperm.nodup_iff]
  constructor
  · exact List.Nodup.of_map workerOfKey
  · apply List.Nodup.map_on
    intro key hkey key' hkey' heq
    obtain ⟨w, -, rfl⟩ := (h key).mp hkey
    obtain ⟨w', -, rfl⟩ := (h key').mp hkey'
    rw [workerOfKey_hbKey, workerOfKey_hbKey] at heq
    rw [heq]

theorem listWorkers_eq_sort {live : Finset String} {scan : List String} (h : Scans live scan)
    (hscan : scan.Nodup) : listWorkers scan = live.sort (· ≤ ·) := by
  have hperm : (listWorkers scan).Perm (scan.map workerOfKey) := List.perm_insertionSort _ _
  exact sorted_eq_sort (hperm.nodup_iff.mp ((nodup_listWorkers_iff h).mpr hscan))
    (mem_workers_of_scans h)

theorem lastWorkers_round (m : HeartbeatMonitor) (scan : List String) :
    (m.round hash scan).1.lastWorkers = listWorkers scan := by
  unfold round
  dsimp only [refreshRing]
  split_ifs with heq
  · rfl
  · exact (not_not.mp heq).symm

theorem change_round (m : HeartbeatMonitor) (scan : List String) :
    (m.round hash scan).2 =
      if listWorkers scan ≠ m.lastWorkers then some (listWorkers scan) else none := by
  unfold round
  dsimp only [refreshRing]
  split_ifs <;> rfl

/-- As long as the last list had no repetitions, the callback after a scan is exact if and
only if the scan has none either. -/
theorem callbackExact_round_iff {m : HeartbeatMonitor} {before live : Finset String}
    {scan : List String} (hlast : m.lastWorkers = before.sort (· ≤ ·)) (h : Scans live scan) :
    CallbackExact before live (m.round hash scan).2 ↔ scan.Nodup := by
  rw [change_round, hlast, ← nodup_listWorkers_iff h]
  constructor
  · intro hexact
    by_cases heq : listWorkers scan = before.sort (· ≤ ·)
    · rw [heq]
      exact before.sort_nodup _
    · exact hexact.once _ (if_pos heq)
  · intro hnodup
    have hsort := listWorkers_eq_sort h ((nodup_listWorkers_iff h).mp hnodup)
    have hne : listWorkers scan ≠ before.sort (· ≤ ·) ↔ live ≠ before := by
      rw [hsort, ne_eq, ne_eq, not_iff_not]
      constructor
      · intro heq
        rw [← live.sort_toFinset (· ≤ ·), heq, before.sort_toFinset]
      · rintro rfl
        rfl
    constructor
    · rw [← hne]
      split_ifs with hcase <;> simp [hcase]
    · intro workers hworkers
      obtain ⟨-, hsome⟩ := Option.ite_none_right_eq_some.mp hworkers
      cases hsome
      exact hnodup
    · intro workers hworkers w
      obtain ⟨-, hsome⟩ := Option.ite_none_right_eq_some.mp hworkers
      cases hsome
      rw [hsort, Finset.mem_sort]

/-- The callbacks of a run, each compared with the sets of the scan and of the scan before. -/
def AllExact (before : Finset String) (sets : List (Finset String))
    (changes : List (Option (List String))) : Prop :=
  ∀ (n : ℕ) previous live change, (before :: sets)[n]? = some previous →
    sets[n]? = some live → changes[n]? = some change → CallbackExact previous live change

theorem allExact_cons_iff {before live : Finset String} {sets : List (Finset String)}
    {change : Option (List String)} {changes : List (Option (List String))} :
    AllExact before (live :: sets) (change :: changes) ↔
      CallbackExact before live change ∧ AllExact live sets changes := by
  constructor
  · intro h
    constructor
    · exact h 0 before live change rfl rfl rfl
    · intro n previous live' change' hprevious hlive hchange
      exact h (n + 1) previous live' change' hprevious hlive hchange
  · rintro ⟨hfirst, hrest⟩ n previous live' change' hprevious hlive hchange
    cases n with
    | zero =>
      cases hprevious
      cases hlive
      cases hchange
      exact hfirst
    | succ n => exact hrest n previous live' change' hprevious hlive hchange

theorem allExact_run_iff {m : HeartbeatMonitor} {before : Finset String}
    {sets : List (Finset String)} {scans : List (List String)}
    (hlast : m.lastWorkers = before.sort (· ≤ ·)) (h : List.Forall₂ Scans sets scans) :
    AllExact before sets (m.run hash scans) ↔ ∀ scan ∈ scans, scan.Nodup := by
  induction h generalizing m before with
  | nil => simp [AllExact, run]
  | @cons live scan sets scans hscan _ ih =>
    rw [run, allExact_cons_iff, callbackExact_round_iff hlast hscan, List.forall_mem_cons]
    apply and_congr_right
    intro hnodup
    apply ih
    rw [lastWorkers_round, listWorkers_eq_sort hscan hnodup]

/-- Whatever sets are scanned and however, the monitor calls back exactly on changes of the
set, with each worker of the new set once, if and only if no scan repeats a key. -/
theorem callbacks_exact_iff (hash : String → ℕ) (registry : WorkerRegistry)
    {sets : List (Finset String)} {scans : List (List String)}
    (h : List.Forall₂ Scans sets scans) :
    AllExact ∅ sets ((start registry).run hash scans) ↔ ∀ scan ∈ scans, scan.Nodup := by
  apply allExact_run_iff _ h
  rw [Finset.sort_empty]
  rfl

/-- Two workers, scanned in both orders. -/
theorem callbacks_exact_iff_reordered :
    List.Forall₂ Scans [{"a", "b"}, {"a", "b"}] [[hbKey "a", hbKey "b"], [hbKey "b", hbKey "a"]] ∧
      (AllExact ∅ [{"a", "b"}, {"a", "b"}] ((start .init).run Text.stringCode
          [[hbKey "a", hbKey "b"], [hbKey "b", hbKey "a"]]) ↔
        ∀ scan ∈ [[hbKey "a", hbKey "b"], [hbKey "b", hbKey "a"]], scan.Nodup) := by
  have hscans : List.Forall₂ Scans [{"a", "b"}, {"a", "b"}]
      [[hbKey "a", hbKey "b"], [hbKey "b", hbKey "a"]] := by
    simp [Scans, or_comm]
  exact ⟨hscans, callbacks_exact_iff Text.stringCode .init hscans⟩

/-- The second scan reports the key of the only worker twice: `on_change` is called although
the set is as before, and with a list that names the worker twice. -/
theorem repeated_key_calls_back :
    List.Forall₂ Scans [{"a"}, {"a"}] [[hbKey "a"], [hbKey "a", hbKey "a"]] ∧
      (start .init).run Text.stringCode [[hbKey "a"], [hbKey "a", hbKey "a"]] =
        [some ["a"], some ["a", "a"]] ∧
      ¬AllExact ∅ [{"a"}, {"a"}] ((start .init).run Text.stringCode
        [[hbKey "a"], [hbKey "a", hbKey "a"]]) := by
  have hrun : (start .init).run Text.stringCode [[hbKey "a"], [hbKey "a", hbKey "a"]] =
      [some ["a"], some ["a", "a"]] := by
    decide +kernel
  refine ⟨by simp [Scans], hrun, ?_⟩
  intro h
  have hsecond := h 1 {"a"} {"a"} (some ["a", "a"]) rfl rfl (by rw [hrun]; rfl)
  exact hsecond.called.mp rfl rfl

end HeartbeatMonitor

end LegalLens.Orchestration
