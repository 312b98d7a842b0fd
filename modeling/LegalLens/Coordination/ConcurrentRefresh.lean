import LegalLens.Coordination.WorkerRegistry
import LegalLens.Library.Runs
import LegalLens.Library.Text

/-!
# Two coroutines that refresh one ring

`watch_events` and `HeartbeatMonitor.run` both call `refresh_ring` on one registry. A scan
takes several round trips, in which heartbeat keys come and go and the other coroutine may
run; the ring is overwritten once the last reply has arrived. Nothing compares the scan in
hand with the one that the ring was built from, so a refresh that began earlier may complete
later.
-/

namespace LegalLens.Coordination

open Workers WorkerRegistry

inductive Refresher where
  | watchEvents
  | heartbeatMonitor
  deriving DecidableEq, Repr

inductive RefreshPhase where
  | idle
  | scanning (started : ℕ)
  | scanned (started : ℕ) (scan : List String)

structure Refresh where
  started : ℕ
  workers : List String

/-- A registry, the heartbeat keys in Redis by worker, and the two coroutines. The clock
counts the events that matter for the order of changes and scans. -/
structure SharedRegistry where
  registry : WorkerRegistry
  present : Finset String
  changed : String → ℕ
  clock : ℕ
  phase : Refresher → RefreshPhase
  completed : List Refresh

namespace SharedRegistry

/-- A fresh registry while the given workers have heartbeat keys. -/
def initial (present : Finset String) : SharedRegistry :=
  ⟨.init, present, fun _ => 0, 1, fun _ => .idle, []⟩

inductive Action where
  | setKey (w : String)
  | removeKey (w : String)
  | beginScan (c : Refresher)
  | endScan (c : Refresher) (scan : List String)
  | complete (c : Refresher)

def Action.found : Action → List String
  | .endScan _ scan => scan.map workerOfKey
  | _ => []

def change (s : SharedRegistry) (w : String) (present : Finset String) : SharedRegistry :=
  { s with
    present := present, changed := Function.update s.changed w s.clock, clock := s.clock + 1 }

def setPhase (s : SharedRegistry) (c : Refresher) (phase : RefreshPhase) : SharedRegistry :=
  { s with phase := Function.update s.phase c phase }

/-- What Redis guarantees about a scan: every key present throughout it is reported, and no
key absent throughout it. -/
def Reports (s : SharedRegistry) (started : ℕ) (scan : List String) : Prop :=
  (∀ w ∈ s.present, s.changed w < started → hbKey w ∈ scan) ∧
    ∀ key ∈ scan, key = hbKey (workerOfKey key) ∧
      (workerOfKey key ∈ s.present ∨ started ≤ s.changed (workerOfKey key))

instance (s : SharedRegistry) (started : ℕ) (scan : List String) :
    Decidable (s.Reports started scan) :=
  inferInstanceAs (Decidable (_ ∧ _))

variable (hash : String → ℕ)

/-- The last reply has arrived: the ring is overwritten and the call returns. -/
def finish (s : SharedRegistry) (c : Refresher) (started : ℕ) (scan : List String) :
    SharedRegistry :=
  let (registry, workers) := s.registry.refreshRing hash scan
  { s.setPhase c .idle with
    registry := registry, completed := ⟨started, workers⟩ :: s.completed }

/-- Refreshing a key that exists and removing one that does not change nothing. -/
def step (s : SharedRegistry) : Action → Option SharedRegistry
  | .setKey w => some (if w ∈ s.present then s else s.change w (insert w s.present))
  | .removeKey w => some (if w ∈ s.present then s.change w (s.present.erase w) else s)
  | .beginScan c =>
    match s.phase c with
    | .idle => some { s.setPhase c (.scanning s.clock) with clock := s.clock + 1 }
    | _ => none
  | .endScan c scan =>
    match s.phase c with
    | .scanning started =>
      if s.Reports started scan then some (s.setPhase c (.scanned started scan)) else none
    | _ => none
  | .complete c =>
    match s.phase c with
    | .scanned started scan => some (s.finish hash c started scan)
    | _ => none

/-- The same as a relation, one case for each kind of step. -/
inductive Step (s : SharedRegistry) : Action → SharedRegistry → Prop
  | heartbeat (w : String) : Step s (.setKey w) s
  | absent (w : String) : Step s (.removeKey w) s
  | create (w : String) : Step s (.setKey w) (s.change w (insert w s.present))
  | remove (w : String) : Step s (.removeKey w) (s.change w (s.present.erase w))
  | beginScan {c : Refresher} (hphase : s.phase c = .idle) :
      Step s (.beginScan c) { s.setPhase c (.scanning s.clock) with clock := s.clock + 1 }
  | endScan {c : Refresher} {started : ℕ} {scan : List String}
      (hphase : s.phase c = .scanning started) (hreports : s.Reports started scan) :
      Step s (.endScan c scan) (s.setPhase c (.scanned started scan))
  | complete {c : Refresher} {started : ℕ} {scan : List String}
      (hphase : s.phase c = .scanned started scan) :
      Step s (.complete c) (s.finish hash c started scan)

variable {hash}

theorem step_of_eq_some {s t : SharedRegistry} {a : Action} (h : s.step hash a = some t) :
    Step hash s a t := by
  cases a with
  | setKey w =>
    simp only [step] at h
    split_ifs at h <;> cases h
    · exact .heartbeat w
    · exact .create w
  | removeKey w =>
    simp only [step] at h
    split_ifs at h <;> cases h
    · exact .remove w
    · exact .absent w
  | beginScan c =>
    simp only [step] at h
    split at h
    next hphase =>
      cases h
      exact .beginScan hphase
    · cases h
  | endScan c scan =>
    simp only [step] at h
    split at h
    next started hphase =>
      split_ifs at h with hreports
      cases h
      exact .endScan hphase hreports
    · cases h
  | complete c =>
    simp only [step] at h
    split at h
    next started scan hphase =>
      cases h
      exact .complete hphase
    · cases h

/-- Nothing that a completed refresh has put in the ring is missing while its key exists as
before that refresh, and nothing that it left out is back while its key is missing as before
that refresh. -/
def NeverGoesBack (s : SharedRegistry) : Prop :=
  ∀ r ∈ s.completed, ∀ w, s.changed w < r.started →
    (w ∈ r.workers → w ∈ s.present → w ∈ s.registry.ring.workers) ∧
      (w ∉ r.workers → w ∉ s.present → w ∉ s.registry.ring.workers)

/-- A refresh does not complete on a scan that is wrong about a key which changed before a
refresh that has already completed. -/
def CompletesFresh (s : SharedRegistry) (a : Action) : Prop :=
  ∀ c started scan, a = .complete c → s.phase c = .scanned started scan →
    ∀ r ∈ s.completed, ∀ w, started ≤ s.changed w → s.changed w < r.started →
      (hbKey w ∈ scan ↔ w ∈ s.present)

/-! ## What a step preserves -/

/-- A worker list that was right about a key is right about it until the key changes. -/
def Agrees (s : SharedRegistry) (started : ℕ) (workers : List String) : Prop :=
  ∀ w, s.changed w < started → (w ∈ workers ↔ w ∈ s.present)

/-- Changes and scans lie in the past, and scans are right about the keys that have not
changed since they began. -/
structure Inv (s : SharedRegistry) : Prop where
  changed : ∀ w, s.changed w < s.clock
  scanning : ∀ c started, s.phase c = .scanning started → started < s.clock
  scanned : ∀ c started scan, s.phase c = .scanned started scan →
    started < s.clock ∧ s.Agrees started (listWorkers scan) ∧
      ∀ w, hbKey w ∈ scan ↔ w ∈ listWorkers scan
  completed : ∀ r ∈ s.completed, r.started < s.clock ∧ s.Agrees r.started r.workers

variable {s t : SharedRegistry}

theorem inv_initial (present : Finset String) : (initial present).Inv := by
  constructor
  · intro w
    exact Nat.one_pos
  · intro c started h
    cases h
  · intro c started scan h
    cases h
  · intro r hr
    cases hr

/-- A change of a key lies after the begin of every scan, so no scan has to be right about it. -/
theorem Agrees.change {started : ℕ} {workers : List String} (h : s.Agrees started workers)
    (hstarted : started < s.clock) {w : String} {present : Finset String}
    (hpresent : ∀ v, v ≠ w → (v ∈ present ↔ v ∈ s.present)) :
    (s.change w present).Agrees started workers := by
  intro v hv
  rcases eq_or_ne v w with rfl | hne
  · simp only [SharedRegistry.change, Function.update_self] at hv
    omega
  · simp only [SharedRegistry.change, Function.update_of_ne hne] at hv
    rw [h v hv]
    exact (hpresent v hne).symm

theorem Inv.change (hs : s.Inv) {w : String} {present : Finset String}
    (hpresent : ∀ v, v ≠ w → (v ∈ present ↔ v ∈ s.present)) : (s.change w present).Inv := by
  constructor
  · intro v
    rcases eq_or_ne v w with rfl | hne
    · simp [SharedRegistry.change]
    · simpa [SharedRegistry.change, hne] using (hs.changed v).trans (Nat.lt_succ_self _)
  · intro c started hphase
    exact (hs.scanning c started hphase).trans (Nat.lt_succ_self _)
  · intro c started scan hphase
    obtain ⟨hlt, hagrees, hkeys⟩ := hs.scanned c started scan hphase
    exact ⟨hlt.trans (Nat.lt_succ_self _), hagrees.change hlt hpresent, hkeys⟩
  · intro r hr
    obtain ⟨hlt, hagrees⟩ := hs.completed r hr
    exact ⟨hlt.trans (Nat.lt_succ_self _), hagrees.change hlt hpresent⟩

theorem Reports.hbKey_mem_iff {started : ℕ} {scan : List String} (h : s.Reports started scan)
    (w : String) : hbKey w ∈ scan ↔ w ∈ listWorkers scan :=
  WorkerRegistry.hbKey_mem_iff (fun key hkey => (h.2 key hkey).1) w

theorem Reports.agrees {started : ℕ} {scan : List String} (h : s.Reports started scan) :
    s.Agrees started (listWorkers scan) := by
  intro w hw
  rw [← h.hbKey_mem_iff w]
  constructor
  · intro hmem
    obtain ⟨-, hpresent⟩ := h.2 _ hmem
    rw [workerOfKey_hbKey] at hpresent
    exact hpresent.resolve_right (not_le.mpr hw)
  · intro hpresent
    exact h.1 w hpresent hw

theorem phase_setPhase {c c' : Refresher} {phase phase' : RefreshPhase}
    (h : (s.setPhase c phase).phase c' = phase') : phase = phase' ∨ s.phase c' = phase' := by
  rcases eq_or_ne c' c with rfl | hne
  · simp only [setPhase, Function.update_self] at h
    exact Or.inl h
  · simp only [setPhase, Function.update_of_ne hne] at h
    exact Or.inr h

theorem Inv.begin (hs : s.Inv) (c : Refresher) :
    Inv { s.setPhase c (.scanning s.clock) with clock := s.clock + 1 } := by
  have hlater : ∀ {n}, n < s.clock → n < s.clock + 1 := fun hn => hn.trans (Nat.lt_succ_self _)
  constructor
  · exact fun w => hlater (hs.changed w)
  · intro c' started h
    rcases phase_setPhase h with h | h
    · cases h
      exact Nat.lt_succ_self _
    · exact hlater (hs.scanning c' started h)
  · intro c' started scan h
    obtain ⟨hlt, hrest⟩ := hs.scanned c' started scan ((phase_setPhase h).resolve_left nofun)
    exact ⟨hlater hlt, hrest⟩
  · intro r hr
    obtain ⟨hlt, hagrees⟩ := hs.completed r hr
    exact ⟨hlater hlt, hagrees⟩

theorem Inv.end (hs : s.Inv) {c : Refresher} {started : ℕ} {scan : List String}
    (hphase : s.phase c = .scanning started) (hreports : s.Reports started scan) :
    (s.setPhase c (.scanned started scan)).Inv := by
  constructor
  · exact hs.changed
  · intro c' started' h
    exact hs.scanning c' started' ((phase_setPhase h).resolve_left nofun)
  · intro c' started' scan' h
    rcases phase_setPhase h with h | h
    · cases h
      exact ⟨hs.scanning c started hphase, hreports.agrees, hreports.hbKey_mem_iff⟩
    · exact hs.scanned c' started' scan' h
  · exact hs.completed

theorem Inv.finish (hs : s.Inv) {c : Refresher} {started : ℕ} {scan : List String}
    (hphase : s.phase c = .scanned started scan) : (s.finish hash c started scan).Inv := by
  constructor
  · exact hs.changed
  · intro c' started' h
    exact hs.scanning c' started' ((phase_setPhase h).resolve_left nofun)
  · intro c' started' scan' h
    exact hs.scanned c' started' scan' ((phase_setPhase h).resolve_left nofun)
  · intro r hr
    rcases List.mem_cons.mp hr with rfl | hr
    · obtain ⟨hlt, hagrees, -⟩ := hs.scanned c started scan hphase
      exact ⟨hlt, hagrees⟩
    · exact hs.completed r hr

theorem inv_step {a : Action} (hs : s.Inv) (h : s.step hash a = some t) : t.Inv := by
  cases step_of_eq_some h with
  | heartbeat w => exact hs
  | absent w => exact hs
  | create w =>
    apply hs.change
    intro v hne
    simp [hne]
  | remove w =>
    apply hs.change
    intro v hne
    simp [hne]
  | beginScan hphase => exact hs.begin _
  | endScan hphase hreports => exact hs.end hphase hreports
  | complete hphase => exact hs.finish hphase

def view (s : SharedRegistry) : List String := (s.completed.head?.map Refresh.workers).getD []

/-- What every completed refresh is right about, the last one is right about. -/
def ViewAgrees (s : SharedRegistry) : Prop := ∀ r ∈ s.completed, s.Agrees r.started s.view

theorem ViewAgrees.change (hview : s.ViewAgrees) (hs : s.Inv) {w : String}
    {present : Finset String} (hpresent : ∀ v, v ≠ w → (v ∈ present ↔ v ∈ s.present)) :
    (s.change w present).ViewAgrees := by
  intro r hr
  exact (hview r hr).change (hs.completed r hr).1 hpresent

theorem viewAgrees_finish_iff (hs : s.Inv) {c : Refresher} {started : ℕ} {scan : List String}
    (hphase : s.phase c = .scanned started scan) :
    (s.finish hash c started scan).ViewAgrees ↔ s.CompletesFresh (.complete c) := by
  obtain ⟨-, hagrees, hkeys⟩ := hs.scanned c started scan hphase
  constructor
  · intro h c' started' scan' hc hphase' r hr w _ hlt
    cases hc
    rw [hphase] at hphase'
    cases hphase'
    rw [hkeys w]
    exact h r (List.mem_cons_of_mem _ hr) w hlt
  · intro h r hr
    rcases List.mem_cons.mp hr with rfl | hr
    · exact hagrees
    · intro w hlt
      rcases lt_or_ge (s.changed w) started with hbefore | hafter
      · exact hagrees w hbefore
      · exact (hkeys w).symm.trans (h c started scan rfl hphase r hr w hafter hlt)

/-- A step keeps the agreement exactly if it does not complete a refresh on a stale scan. -/
theorem viewAgrees_step_iff {a : Action} (hs : s.Inv) (hview : s.ViewAgrees)
    (h : s.step hash a = some t) : t.ViewAgrees ↔ s.CompletesFresh a := by
  cases step_of_eq_some h with
  | heartbeat w => exact iff_of_true hview nofun
  | absent w => exact iff_of_true hview nofun
  | create w =>
    apply iff_of_true _ nofun
    apply hview.change hs
    intro v hne
    simp [hne]
  | remove w =>
    apply iff_of_true _ nofun
    apply hview.change hs
    intro v hne
    simp [hne]
  | beginScan hphase => exact iff_of_true hview nofun
  | endScan hphase hreports => exact iff_of_true hview nofun
  | complete hphase => exact viewAgrees_finish_iff hs hphase

/-- The ring has the workers that it was last built from, as far as scans report workers
whose labels the hash separates. -/
structure Rings (ids : List String) (s : SharedRegistry) : Prop where
  virtualNodes : s.registry.ring.virtualNodes = ConsistentHashRing.defaultVirtualNodes
  found : ∀ c started scan, s.phase c = .scanned started scan → scan.map workerOfKey ⊆ ids
  workers : ∀ w, w ∈ s.registry.ring.workers ↔ w ∈ s.view

theorem rings_initial (ids : List String) (present : Finset String) :
    Rings ids (initial present) := by
  constructor
  · rfl
  · intro c started scan h
    cases h
  · intro w
    exact Iff.rfl

theorem rings_step {ids : List String}
    (hinj : ConsistentHashRing.InjectiveOnLabels hash ConsistentHashRing.defaultVirtualNodes ids)
    {a : Action} (hs : s.Rings ids) (ha : a.found ⊆ ids) (h : s.step hash a = some t) :
    t.Rings ids := by
  cases step_of_eq_some h with
  | heartbeat w => exact hs
  | absent w => exact hs
  | create w => exact ⟨hs.virtualNodes, hs.found, hs.workers⟩
  | remove w => exact ⟨hs.virtualNodes, hs.found, hs.workers⟩
  | beginScan hphase =>
    constructor
    · exact hs.virtualNodes
    · intro c' started scan h
      exact hs.found c' started scan ((phase_setPhase h).resolve_left nofun)
    · exact hs.workers
  | endScan hphase hreports =>
    constructor
    · exact hs.virtualNodes
    · intro c' started scan h
      rcases phase_setPhase h with h | h
      · cases h
        exact ha
      · exact hs.found c' started scan h
    · exact hs.workers
  | @complete c started scan hphase =>
    have hfound := hs.found c started scan hphase
    constructor
    · exact hs.virtualNodes
    · intro c' started scan h
      exact hs.found c' started scan ((phase_setPhase h).resolve_left nofun)
    · exact mem_workers_refreshRing_of_subset hs.virtualNodes hinj hfound

theorem Rings.neverGoesBack_iff {ids : List String} (hs : s.Inv) (hrings : s.Rings ids) :
    s.NeverGoesBack ↔ s.ViewAgrees := by
  constructor
  · intro h r hr w hlt
    have hagrees := (hs.completed r hr).2 w hlt
    rw [← hrings.workers w]
    by_cases hw : w ∈ s.present
    · exact iff_of_true ((h r hr w hlt).1 (hagrees.mpr hw) hw) hw
    · exact iff_of_false ((h r hr w hlt).2 (fun hmem => hw (hagrees.mp hmem)) hw) hw
  · intro h r hr w hlt
    rw [hrings.workers w, h r hr w hlt]
    exact ⟨fun _ hw => hw, fun _ hw => hw⟩

/-- Refreshes that complete in the order in which they began are never stale. -/
theorem completesFresh_of_inOrder {a : Action}
    (h : ∀ c started scan, a = .complete c → s.phase c = .scanned started scan →
      ∀ r ∈ s.completed, r.started ≤ started) : s.CompletesFresh a := by
  intro c started scan ha hphase r hr w hafter hlt
  have := h c started scan ha hphase r hr
  omega

/-- The ring never goes back in time exactly if no refresh completes on a scan that is stale
about a key which changed before a refresh that has already completed. -/
theorem never_goes_back_iff {present : Finset String} {acts : List Action}
    (hinj : ConsistentHashRing.InjectiveOnLabels hash ConsistentHashRing.defaultVirtualNodes
      (acts.flatMap Action.found))
    (hrun : Runs.run (step hash) (initial present) acts = some t) :
    Runs.EveryState (step hash) (initial present) acts NeverGoesBack ↔
      Runs.EveryStep (step hash) (initial present) acts CompletesFresh := by
  have hfound : Runs.EveryStep (step hash) (initial present) acts
      fun _ a => a.found ⊆ acts.flatMap Action.found :=
    Runs.everyStep_of_forall_mem fun a ha w hw => List.mem_flatMap.mpr ⟨a, ha, hw⟩
  refine Runs.everyState_iff_everyStep_of_admissible
    (I := fun s => s.Inv ∧ s.Rings (acts.flatMap Action.found)) ?_ ?_
    ⟨inv_initial present, rings_initial _ present⟩ nofun hfound hrun
  · rintro s a u ⟨hinv, hrings⟩ ha h
    exact ⟨inv_step hinv h, rings_step hinj hrings ha h⟩
  · rintro s a u ⟨hinv, hrings⟩ ha hback h
    rw [(rings_step hinj hrings ha h).neverGoesBack_iff (inv_step hinv h)]
    exact viewAgrees_step_iff hinv ((hrings.neverGoesBack_iff hinv).mp hback) h

/-- Two overlapping refreshes that complete in the order in which they began. -/
theorem never_goes_back_iff_in_order :
    let acts : List Action :=
      [.beginScan .heartbeatMonitor, .setKey "a", .beginScan .watchEvents,
        .endScan .heartbeatMonitor [], .complete .heartbeatMonitor,
        .endScan .watchEvents [hbKey "a"], .complete .watchEvents]
    ∃ s, Runs.run (step Text.stringCode) (initial ∅) acts = some s ∧
      s.completed.map Refresh.workers = [["a"], []] ∧
      (Runs.EveryState (step Text.stringCode) (initial ∅) acts NeverGoesBack ↔
        Runs.EveryStep (step Text.stringCode) (initial ∅) acts CompletesFresh) := by
  intro acts
  have hrun : ((Runs.run (step Text.stringCode) (initial ∅) acts).map fun s =>
      s.completed.map Refresh.workers) = some [["a"], []] := by
    decide +kernel
  obtain ⟨s, hs, hcompleted⟩ := Option.map_eq_some_iff.mp hrun
  exact ⟨s, hs, hcompleted, never_goes_back_iff (.of_injective Text.stringCode_injective) hs⟩

/-- A worker joins while the monitor scans without seeing it. The refresh for its event
completes first, and then the monitor takes the worker out again. -/
theorem join_undone_by_earlier_scan :
    let acts : List Action :=
      [.beginScan .heartbeatMonitor, .endScan .heartbeatMonitor [], .setKey "a",
        .beginScan .watchEvents, .endScan .watchEvents [hbKey "a"], .complete .watchEvents,
        .complete .heartbeatMonitor]
    ∃ s, Runs.run (step Text.stringCode) (initial ∅) acts = some s ∧ ¬s.NeverGoesBack := by
  intro acts
  have hrun : ((Runs.run (step Text.stringCode) (initial ∅) acts).map fun s =>
      (s.completed.map fun r => (r.started, r.workers), s.changed "a", s.present,
        s.registry.ring.workers)) = some ([(1, []), (3, ["a"])], 2, {"a"}, []) := by
    decide +kernel
  obtain ⟨s, hs, hvalues⟩ := Option.map_eq_some_iff.mp hrun
  simp only [Prod.mk.injEq] at hvalues
  obtain ⟨hcompleted, hchanged, hpresent, hworkers⟩ := hvalues
  refine ⟨s, hs, fun h => ?_⟩
  have hmem : (3, ["a"]) ∈ s.completed.map fun r => (r.started, r.workers) := by simp [hcompleted]
  obtain ⟨r, hr, heq⟩ := List.mem_map.mp hmem
  obtain ⟨hstarted, hfound⟩ := Prod.mk.inj heq
  have hlost := (h r hr "a" (by omega)).1 (by simp [hfound]) (by simp [hpresent])
  simp [hworkers] at hlost

end SharedRegistry

end LegalLens.Coordination
