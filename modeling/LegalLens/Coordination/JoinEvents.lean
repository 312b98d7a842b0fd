import LegalLens.Coordination.WorkerRegistry
import LegalLens.Library.Runs
import LegalLens.Library.Text

/-!
# Joins that travel by event

A worker joins by a write and a message, both through the Redis master. The watcher answers
a message with a scan of a replica, and the replica applies the writes of the master later.
The message may therefore overtake the write it announces. Nothing in the watcher waits for
the replica, and no message follows when it has caught up.
-/

namespace LegalLens.Coordination

open Workers WorkerRegistry

inductive KeyWrite where
  | set (w : String)
  | delete (w : String)
  deriving DecidableEq

/-- The payloads `join:<id>` and `leave:<id>`. -/
inductive WorkerEvent where
  | join (w : String)
  | leave (w : String)
  deriving DecidableEq

/-- A published event, and how many writes the master had executed by then. -/
structure Message where
  event : WorkerEvent
  position : ℕ

/-- Where `watch_events` is in its loop; a scan has seen the replica after every number of
writes between two bounds. -/
inductive WatchPhase where
  | listening
  | scanning (message : Message) (since : ℕ)
  | scanned (message : Message) (since upTo : ℕ) (scan : List String)

def KeyWrite.apply (keys : Finset String) : KeyWrite → Finset String
  | .set w => insert w keys
  | .delete w => keys.erase w

/-- The master with its writes, the writes that the replica has applied, the publishes that
are due, the messages under way, and the watcher with its registry. The refreshes it has
completed come with the message they answer, the last one first. -/
structure EventBus where
  writes : List KeyWrite
  applied : ℕ
  due : List WorkerEvent
  channel : List Message
  phase : WatchPhase
  registry : WorkerRegistry
  processed : List (Message × List String)

namespace EventBus

def start : EventBus := ⟨[], 0, [], [], .listening, .init, []⟩

inductive Action where
  | register (w : String)
  | heartbeat (w : String)
  | deregister (w : String)
  | expire (w : String)
  | publish (i : ℕ)
  | replicate
  | receive
  | endScan (scan : List String)
  | complete

def Action.found : Action → List String
  | .endScan scan => scan.map workerOfKey
  | _ => []

/-- The workers with heartbeat keys after the first writes. -/
def keysAt (s : EventBus) (k : ℕ) : Finset String := (s.writes.take k).foldl KeyWrite.apply ∅

def write (s : EventBus) (w : KeyWrite) : EventBus := { s with writes := s.writes ++ [w] }

/-- What Redis guarantees about a scan of the replica: every key present throughout it is
reported, and no key absent throughout it. -/
def Reports (s : EventBus) (since upTo : ℕ) (scan : List String) : Prop :=
  (∀ w ∈ s.keysAt since, (∀ k ∈ Finset.Icc since upTo, w ∈ s.keysAt k) → hbKey w ∈ scan) ∧
    ∀ key ∈ scan, key = hbKey (workerOfKey key) ∧
      ∃ k ∈ Finset.Icc since upTo, workerOfKey key ∈ s.keysAt k

instance (s : EventBus) (since upTo : ℕ) (scan : List String) :
    Decidable (s.Reports since upTo scan) :=
  inferInstanceAs (Decidable (_ ∧ _))

variable (hash : String → ℕ)

/-- The last reply has arrived: the ring is overwritten and the watcher listens again. -/
def finish (s : EventBus) (message : Message) (scan : List String) : EventBus :=
  let (registry, workers) := s.registry.refreshRing hash scan
  { s with
    phase := .listening
    registry := registry
    processed := (message, workers) :: s.processed }

/-- A registration and a deregistration publish after their write. -/
def step (s : EventBus) : Action → Option EventBus
  | .register w => some { s.write (.set w) with due := s.due ++ [.join w] }
  | .heartbeat w => some (s.write (.set w))
  | .deregister w => some { s.write (.delete w) with due := s.due ++ [.leave w] }
  | .expire w => some (s.write (.delete w))
  | .publish i =>
    match s.due[i]? with
    | some event =>
      some { s with
        due := s.due.eraseIdx i, channel := s.channel ++ [⟨event, s.writes.length⟩] }
    | none => none
  | .replicate =>
    if s.applied < s.writes.length then some { s with applied := s.applied + 1 } else none
  | .receive =>
    match s.phase, s.channel with
    | .listening, message :: rest =>
      some { s with phase := .scanning message s.applied, channel := rest }
    | _, _ => none
  | .endScan scan =>
    match s.phase with
    | .scanning message since =>
      if s.Reports since s.applied scan then
        some { s with phase := .scanned message since s.applied scan }
      else none
    | _ => none
  | .complete =>
    match s.phase with
    | .scanned message _ _ scan => some (s.finish hash message scan)
    | _ => none

/-- The key of the worker has been on the master ever since a number of writes. -/
def PresentSince (s : EventBus) (position : ℕ) (w : String) : Prop :=
  ∀ k, position ≤ k → k ≤ s.writes.length → w ∈ s.keysAt k

/-- Every worker whose join has been processed is in the ring, if its key has been on the
master since the join was published. -/
def Propagates (s : EventBus) : Prop :=
  ∀ p ∈ s.processed, ∀ w, p.1.event = .join w → s.PresentSince p.1.position w →
    w ∈ s.registry.ring.workers

/-- No message is answered by a scan that missed a worker whose key the replica lacked
during it, although the join of the worker is in hand or processed and its key has been on
the master since. -/
def MissesNoJoin (s : EventBus) (a : Action) : Prop :=
  ∀ message since upTo scan, a = .complete → s.phase = .scanned message since upTo scan →
    ∀ m w, m = message ∨ m ∈ s.processed.map Prod.fst → m.event = .join w →
      s.PresentSince m.position w → (∃ k ∈ Finset.Icc since upTo, w ∉ s.keysAt k) →
        hbKey w ∈ scan

/-- The same as a relation, one case for each kind of step. -/
inductive Step (s : EventBus) : Action → EventBus → Prop
  | write {a : Action} (ha : a ≠ .complete) (w : KeyWrite) (due : List WorkerEvent) :
      Step s a { s.write w with due := due }
  | publish {i : ℕ} (event : WorkerEvent) :
      Step s (.publish i)
        { s with
          due := s.due.eraseIdx i, channel := s.channel ++ [⟨event, s.writes.length⟩] }
  | replicate (h : s.applied < s.writes.length) :
      Step s .replicate { s with applied := s.applied + 1 }
  | receive {message : Message} {rest : List Message} (hphase : s.phase = .listening)
      (hchannel : s.channel = message :: rest) :
      Step s .receive { s with phase := .scanning message s.applied, channel := rest }
  | endScan {message : Message} {since : ℕ} {scan : List String}
      (hphase : s.phase = .scanning message since) (hreports : s.Reports since s.applied scan) :
      Step s (.endScan scan) { s with phase := .scanned message since s.applied scan }
  | complete {message : Message} {since upTo : ℕ} {scan : List String}
      (hphase : s.phase = .scanned message since upTo scan) :
      Step s .complete (s.finish hash message scan)

variable {hash} {s t : EventBus}

theorem step_of_eq_some {a : Action} (h : s.step hash a = some t) : Step hash s a t := by
  cases a with
  | register w =>
    cases h
    exact .write (by simp) (.set w) _
  | heartbeat w =>
    cases h
    exact .write (by simp) (.set w) s.due
  | deregister w =>
    cases h
    exact .write (by simp) (.delete w) _
  | expire w =>
    cases h
    exact .write (by simp) (.delete w) s.due
  | publish i =>
    simp only [step] at h
    split at h
    next event hevent =>
      cases h
      exact .publish event
    · cases h
  | replicate =>
    simp only [step] at h
    split_ifs at h with hlt
    cases h
    exact .replicate hlt
  | receive =>
    simp only [step] at h
    split at h
    next message rest hphase hchannel =>
      cases h
      exact .receive hphase hchannel
    · cases h
  | endScan scan =>
    simp only [step] at h
    split at h
    next message since hphase =>
      split_ifs at h with hreports
      cases h
      exact .endScan hphase hreports
    · cases h
  | complete =>
    simp only [step] at h
    split at h
    next message since upTo scan hphase =>
      cases h
      exact .complete hphase
    · cases h

/-! ## What a step preserves -/

theorem keysAt_write {k : ℕ} (hk : k ≤ s.writes.length) (w : KeyWrite) :
    (s.write w).keysAt k = s.keysAt k := by
  rw [keysAt, write, List.take_append_of_le_length hk, ← keysAt]

theorem PresentSince.of_write {position : ℕ} {v : String} {w : KeyWrite}
    (h : (s.write w).PresentSince position v) : s.PresentSince position v := by
  intro k hk hlen
  rw [← keysAt_write hlen w]
  apply h k hk
  simp only [write, List.length_append]
  omega

theorem Reports.write {since upTo : ℕ} {scan : List String} (h : s.Reports since upTo scan)
    (hsince : since ≤ upTo) (hupTo : upTo ≤ s.writes.length) (w : KeyWrite) :
    (s.write w).Reports since upTo scan := by
  have hkeys : ∀ k ∈ Finset.Icc since upTo, (s.write w).keysAt k = s.keysAt k := by
    intro k hk
    exact keysAt_write ((Finset.mem_Icc.mp hk).2.trans hupTo) w
  constructor
  · intro v hv hall
    rw [hkeys since (Finset.left_mem_Icc.mpr hsince)] at hv
    apply h.1 v hv
    intro k hk
    rw [← hkeys k hk]
    exact hall k hk
  · intro key hkey
    obtain ⟨heq, k, hk, hmem⟩ := h.2 key hkey
    rw [← hkeys k hk] at hmem
    exact ⟨heq, k, hk, hmem⟩

def inHand (s : EventBus) : List Message :=
  match s.phase with
  | .listening => []
  | .scanning message _ => [message]
  | .scanned message _ _ _ => [message]

def published (s : EventBus) : List Message :=
  (s.processed.map Prod.fst).reverse ++ s.inHand ++ s.channel

/-- Messages and scans refer to writes that have been executed, and the watcher answers the
messages in the order of their publication. -/
structure Inv (s : EventBus) : Prop where
  applied : s.applied ≤ s.writes.length
  scanning : ∀ message since, s.phase = .scanning message since → since ≤ s.applied
  scanned : ∀ message since upTo scan, s.phase = .scanned message since upTo scan →
    since ≤ upTo ∧ upTo ≤ s.applied ∧ s.Reports since upTo scan
  positions : ∀ m ∈ s.published, m.position ≤ s.writes.length
  ordered : s.published.Pairwise fun a b => a.position ≤ b.position

theorem inv_start : start.Inv := by
  constructor
  · exact le_rfl
  · intro message since h
    cases h
  · intro message since upTo scan h
    cases h
  · intro m hm
    cases hm
  · exact List.Pairwise.nil

theorem Inv.write (hs : s.Inv) (w : KeyWrite) (due : List WorkerEvent) :
    Inv { s.write w with due := due } := by
  have hlen : (s.write w).writes.length = s.writes.length + 1 := by
    simp [EventBus.write]
  constructor
  · exact hs.applied.trans (hlen ▸ Nat.le_succ _)
  · exact hs.scanning
  · intro message since upTo scan hphase
    obtain ⟨hsince, hupTo, hreports⟩ := hs.scanned message since upTo scan hphase
    exact ⟨hsince, hupTo, hreports.write hsince (hupTo.trans hs.applied) w⟩
  · intro m hm
    exact (hs.positions m hm).trans (hlen ▸ Nat.le_succ _)
  · exact hs.ordered

theorem Inv.publish (hs : s.Inv) (event : WorkerEvent) (due : List WorkerEvent) :
    Inv { s with due := due, channel := s.channel ++ [⟨event, s.writes.length⟩] } := by
  have hpublished : published { s with
      due := due, channel := s.channel ++ [⟨event, s.writes.length⟩] } =
        s.published ++ [⟨event, s.writes.length⟩] := (List.append_assoc _ _ _).symm
  constructor
  · exact hs.applied
  · exact hs.scanning
  · exact hs.scanned
  · rw [hpublished]
    intro m hm
    rcases List.mem_append.mp hm with hm | hm
    · exact hs.positions m hm
    · rw [List.mem_singleton.mp hm]
  · rw [hpublished, List.pairwise_append]
    refine ⟨hs.ordered, List.pairwise_singleton _ _, ?_⟩
    intro m hm m' hm'
    rw [List.mem_singleton.mp hm']
    exact hs.positions m hm

theorem Inv.replicate (hs : s.Inv) (hlt : s.applied < s.writes.length) :
    Inv { s with applied := s.applied + 1 } := by
  constructor
  · exact hlt
  · intro message since hphase
    exact (hs.scanning message since hphase).trans (Nat.le_succ _)
  · intro message since upTo scan hphase
    obtain ⟨hsince, hupTo, hreports⟩ := hs.scanned message since upTo scan hphase
    exact ⟨hsince, hupTo.trans (Nat.le_succ _), hreports⟩
  · exact hs.positions
  · exact hs.ordered

theorem Inv.of_published_eq (hs : s.Inv) (happlied : t.applied = s.applied)
    (hwrites : t.writes = s.writes) (hpublished : t.published = s.published)
    (hscanning : ∀ message since, t.phase = .scanning message since → since ≤ t.applied)
    (hscanned : ∀ message since upTo scan, t.phase = .scanned message since upTo scan →
      since ≤ upTo ∧ upTo ≤ t.applied ∧ t.Reports since upTo scan) : t.Inv := by
  constructor
  · rw [happlied, hwrites]
    exact hs.applied
  · exact hscanning
  · exact hscanned
  · rw [hpublished, hwrites]
    exact hs.positions
  · rw [hpublished]
    exact hs.ordered

theorem inv_step {a : Action} (hs : s.Inv) (h : s.step hash a = some t) : t.Inv := by
  cases step_of_eq_some h with
  | write ha w due => exact hs.write w due
  | publish event => exact hs.publish event _
  | replicate hlt => exact hs.replicate hlt
  | receive hphase hchannel =>
    refine hs.of_published_eq rfl rfl ?_ ?_ ?_
    · simp [published, inHand, hphase, hchannel]
    · intro message' since hphase'
      cases hphase'
      exact le_rfl
    · intro message' since upTo scan hphase'
      cases hphase'
  | @endScan message since scan hphase hreports =>
    refine hs.of_published_eq rfl rfl ?_ ?_ ?_
    · simp [published, inHand, hphase]
    · intro message' since' hphase'
      cases hphase'
    · intro message' since' upTo scan' hphase'
      cases hphase'
      exact ⟨hs.scanning message since hphase, le_rfl, hreports⟩
  | complete hphase =>
    refine hs.of_published_eq rfl rfl ?_ ?_ ?_
    · simp [published, inHand, finish, hphase]
    · intro message' since' hphase'
      cases hphase'
    · intro message' since' upTo scan' hphase'
      cases hphase'

def view (s : EventBus) : List String := (s.processed.head?.map Prod.snd).getD []

/-- In terms of the last scan: it has the worker of every processed join. -/
def ViewPropagates (s : EventBus) : Prop :=
  ∀ p ∈ s.processed, ∀ w, p.1.event = .join w → s.PresentSince p.1.position w → w ∈ s.view

theorem viewPropagates_finish_iff (hs : s.Inv) {message : Message} {since upTo : ℕ}
    {scan : List String} (hphase : s.phase = .scanned message since upTo scan) :
    (s.finish hash message scan).ViewPropagates ↔ s.MissesNoJoin .complete := by
  obtain ⟨hsince, -, hreports⟩ := hs.scanned message since upTo scan hphase
  have hkeys := WorkerRegistry.hbKey_mem_iff fun key hkey => (hreports.2 key hkey).1
  constructor
  · intro h message' since' upTo' scan' _ hphase' m w hm hjoin hpresent _
    rw [hphase] at hphase'
    cases hphase'
    rw [hkeys w]
    rcases hm with rfl | hm
    · exact h (m, listWorkers scan) List.mem_cons_self w hjoin hpresent
    · obtain ⟨p, hp, rfl⟩ := List.mem_map.mp hm
      exact h p (List.mem_cons_of_mem _ hp) w hjoin hpresent
  · intro h p hp w hjoin hpresent
    have hm : p.1 = message ∨ p.1 ∈ s.processed.map Prod.fst := by
      rcases List.mem_cons.mp hp with rfl | hp
      · exact Or.inl rfl
      · exact Or.inr (List.mem_map_of_mem hp)
    apply (hkeys w).mp
    by_cases hlacked : ∃ k ∈ Finset.Icc since upTo, w ∉ s.keysAt k
    · exact h message since upTo scan rfl hphase p.1 w hm hjoin hpresent hlacked
    · push Not at hlacked
      exact hreports.1 w (hlacked since (Finset.left_mem_Icc.mpr hsince)) hlacked

/-- A step keeps the processed joins in the ring exactly if it does not complete a refresh
whose scan missed one for lack of its key on the replica. -/
theorem viewPropagates_step_iff {a : Action} (hs : s.Inv) (hview : s.ViewPropagates)
    (h : s.step hash a = some t) : t.ViewPropagates ↔ s.MissesNoJoin a := by
  cases step_of_eq_some h with
  | write ha w due =>
    apply iff_of_true
    · intro p hp v hjoin hpresent
      exact hview p hp v hjoin hpresent.of_write
    · intro _ _ _ _ heq
      exact absurd heq ha
  | publish event => exact iff_of_true hview nofun
  | replicate hlt => exact iff_of_true hview nofun
  | receive hphase hchannel => exact iff_of_true hview nofun
  | endScan hphase hreports => exact iff_of_true hview nofun
  | complete hphase => exact viewPropagates_finish_iff hs hphase

/-- A replica that has applied all writes before the publication of a message when the scan
for it begins makes no scan miss a join. -/
theorem missesNoJoin_of_caughtUp {a : Action} (hs : s.Inv)
    (h : ∀ message since upTo scan, s.phase = .scanned message since upTo scan →
      message.position ≤ since) : s.MissesNoJoin a := by
  rintro message since upTo scan - hphase m w hm hjoin hpresent ⟨k, hk, hlacked⟩
  obtain ⟨-, hupTo, -⟩ := hs.scanned message since upTo scan hphase
  have hearlier : m.position ≤ message.position := by
    rcases hm with rfl | hm
    · exact le_rfl
    · have hpublished : s.published =
          (s.processed.map Prod.fst).reverse ++ (message :: s.channel) := by
        simp [published, inHand, hphase]
      have hordered := hs.ordered
      rw [hpublished, List.pairwise_append] at hordered
      exact hordered.2.2 m (List.mem_reverse.mpr hm) message List.mem_cons_self
  obtain ⟨hsince, hk⟩ := Finset.mem_Icc.mp hk
  apply absurd (hpresent k _ _) hlacked
  · exact (hearlier.trans (h message since upTo scan hphase)).trans hsince
  · exact (hk.trans hupTo).trans hs.applied

/-- The ring has the workers that it was last built from, as far as scans report workers
whose labels the hash separates. -/
structure Rings (ids : List String) (s : EventBus) : Prop where
  virtualNodes : s.registry.ring.virtualNodes = ConsistentHashRing.defaultVirtualNodes
  found : ∀ message since upTo scan, s.phase = .scanned message since upTo scan →
    scan.map workerOfKey ⊆ ids
  workers : ∀ w, w ∈ s.registry.ring.workers ↔ w ∈ s.view

theorem rings_start (ids : List String) : Rings ids start := by
  constructor
  · rfl
  · intro message since upTo scan h
    cases h
  · intro w
    exact Iff.rfl

theorem rings_step {ids : List String}
    (hinj : ConsistentHashRing.InjectiveOnLabels hash ConsistentHashRing.defaultVirtualNodes ids)
    {a : Action} (hs : s.Rings ids) (ha : a.found ⊆ ids) (h : s.step hash a = some t) :
    t.Rings ids := by
  cases step_of_eq_some h with
  | write _ w due => exact ⟨hs.virtualNodes, hs.found, hs.workers⟩
  | publish event => exact ⟨hs.virtualNodes, hs.found, hs.workers⟩
  | replicate hlt => exact ⟨hs.virtualNodes, hs.found, hs.workers⟩
  | receive hphase hchannel => exact ⟨hs.virtualNodes, nofun, hs.workers⟩
  | endScan hphase hreports =>
    constructor
    · exact hs.virtualNodes
    · intro message' since' upTo' scan' h
      cases h
      exact ha
    · exact hs.workers
  | @complete message since upTo scan hphase =>
    have hfound := hs.found message since upTo scan hphase
    exact ⟨hs.virtualNodes, nofun, mem_workers_refreshRing_of_subset hs.virtualNodes hinj hfound⟩

theorem Rings.propagates_iff {ids : List String} (hrings : s.Rings ids) :
    s.Propagates ↔ s.ViewPropagates := by
  simp only [Propagates, ViewPropagates, hrings.workers]

/-- Joins propagate with their event exactly if no message is answered by a scan that misses
a join because the replica lags behind the master. -/
theorem joins_propagate_iff {acts : List Action}
    (hinj : ConsistentHashRing.InjectiveOnLabels hash ConsistentHashRing.defaultVirtualNodes
      (acts.flatMap Action.found))
    (hrun : Runs.run (step hash) start acts = some t) :
    Runs.EveryState (step hash) start acts Propagates ↔
      Runs.EveryStep (step hash) start acts MissesNoJoin := by
  have hfound : Runs.EveryStep (step hash) start acts
      fun _ a => a.found ⊆ acts.flatMap Action.found :=
    Runs.everyStep_of_forall_mem fun a ha w hw => List.mem_flatMap.mpr ⟨a, ha, hw⟩
  refine Runs.everyState_iff_everyStep_of_admissible
    (I := fun s => s.Inv ∧ s.Rings (acts.flatMap Action.found)) ?_ ?_
    ⟨inv_start, rings_start _⟩ nofun hfound hrun
  · rintro s a u ⟨hinv, hrings⟩ ha h
    exact ⟨inv_step hinv h, rings_step hinj hrings ha h⟩
  · rintro s a u ⟨hinv, hrings⟩ ha hpropagates h
    rw [(rings_step hinj hrings ha h).propagates_iff]
    exact viewPropagates_step_iff hinv (hrings.propagates_iff.mp hpropagates) h

/-- A worker that joins while the replica keeps up. -/
theorem joins_propagate_iff_caught_up :
    let acts : List Action :=
      [.register "a", .publish 0, .replicate, .receive, .heartbeat "a", .endScan [hbKey "a"],
        .complete]
    ∃ s, Runs.run (step Text.stringCode) start acts = some s ∧
      s.processed.map Prod.snd = [["a"]] ∧
      (Runs.EveryState (step Text.stringCode) start acts Propagates ↔
        Runs.EveryStep (step Text.stringCode) start acts MissesNoJoin) := by
  intro acts
  have hrun : ((Runs.run (step Text.stringCode) start acts).map fun s =>
      s.processed.map Prod.snd) = some [["a"]] := by
    decide +kernel
  obtain ⟨s, hs, hprocessed⟩ := Option.map_eq_some_iff.mp hrun
  exact ⟨s, hs, hprocessed, joins_propagate_iff (.of_injective Text.stringCode_injective) hs⟩

/-- The event of a join overtakes its write on the way to the replica. The watcher scans a
replica without the key and is done with the event. -/
theorem join_overtakes_replication :
    let acts : List Action :=
      [.register "a", .publish 0, .receive, .endScan [], .replicate, .complete]
    ∃ s, Runs.run (step Text.stringCode) start acts = some s ∧ ¬s.Propagates := by
  intro acts
  have hrun : ((Runs.run (step Text.stringCode) start acts).map fun s =>
      (s.processed.map fun p => (p.1.event, p.1.position), s.writes,
        s.registry.ring.workers)) = some ([(.join "a", 1)], [.set "a"], []) := by
    decide +kernel
  obtain ⟨s, hs, hvalues⟩ := Option.map_eq_some_iff.mp hrun
  simp only [Prod.mk.injEq] at hvalues
  obtain ⟨hprocessed, hwrites, hworkers⟩ := hvalues
  refine ⟨s, hs, fun h => ?_⟩
  have hmem : (.join "a", 1) ∈ s.processed.map fun p => (p.1.event, p.1.position) := by
    simp [hprocessed]
  obtain ⟨p, hp, heq⟩ := List.mem_map.mp hmem
  obtain ⟨hevent, hposition⟩ := Prod.mk.inj heq
  have hpresent : s.PresentSince 1 "a" := by
    intro k hk hlen
    rw [hwrites, List.length_singleton] at hlen
    have hk1 : k = 1 := le_antisymm hlen hk
    simp [keysAt, hwrites, hk1, KeyWrite.apply]
  have hlost := h p hp "a" hevent (hposition ▸ hpresent)
  simp [hworkers] at hlost

end EventBus

end LegalLens.Coordination
