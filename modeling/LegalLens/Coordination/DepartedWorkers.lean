import LegalLens.Coordination.FailureDetector

/-!
# Workers that have left

How long can a worker that has left still be chosen by a dispatcher? The key may be set once
more by a command under way, it expires after its time to live, and the ring is rebuilt by
the next scan that misses it. The events that refresh the ring in between cannot make it
older than the monitor alone would.
-/

namespace LegalLens.Coordination

open Workers WorkerRegistry

namespace Beat

variable {bounds : Bounds} {now : ℕ} {b b' : Beat} {a : BeatAction}

/-- Each end of presence is one time to live after `t` or earlier. -/
structure Until (b : Beat) (t : ℕ) : Prop where
  stream : ∀ executed, .set executed ∈ b.stream → executed ≤ t
  key : ∀ since last, b.key = some (since, last) → last ≤ t + hbTtl

theorem Until.mono (h : b.Until now) {later : ℕ} (hle : now ≤ later) : b.Until later := by
  refine ⟨fun executed hmem => (h.stream executed hmem).trans hle, fun since last hkey => ?_⟩
  have hlast := h.key since last hkey
  omega

theorem Until.concat {t : ℕ} (h : b.Until t) (hle : now ≤ t) (executed : ℕ)
    (hmem : .set executed ∈ b.stream ++ [.set now]) : executed ≤ t := by
  rcases List.mem_append.mp hmem with hmem | hmem
  · exact h.stream executed hmem
  · cases List.mem_singleton.mp hmem
    exact hle

theorem last_le_of_dropKey {t : ℕ} {key : Option (ℕ × ℕ)}
    (hkey : ∀ since last, key = some (since, last) → last ≤ t) (since last : ℕ)
    (h : dropKey now key = some (since, last)) : last ≤ t := by
  obtain ⟨⟨since', old⟩, hold, hpair⟩ := Option.map_eq_some_iff.mp h
  cases hpair
  exact (min_le_left old now).trans (hkey since' old hold)

theorem Until.replay {t : ℕ} (h : b.Until t) {write : Write} {stream : List Write}
    (hcons : b.stream = write :: stream) (since last : ℕ)
    (hkey : replay now b.key write = some (since, last)) : last ≤ t + hbTtl := by
  cases write with
  | delete => exact last_le_of_dropKey h.key since last hkey
  | set executed =>
    have hle := h.stream executed (by rw [hcons]; exact List.mem_cons_self)
    simp only [Beat.replay, setKey] at hkey
    split_ifs at hkey with hnow
    · exact last_le_of_dropKey h.key since last hkey
    · split at hkey
      all_goals
        cases hkey
        omega

theorem Until.tail {t : ℕ} (h : b.Until t) {write : Write} {stream : List Write}
    (hcons : b.stream = write :: stream) (executed : ℕ) (hmem : .set executed ∈ stream) :
    executed ≤ t := by
  apply h.stream executed
  rw [hcons]
  exact List.mem_cons_of_mem _ hmem

/-- The key of a worker that has left lasts for one more time to live, counted from the last
`SET` that may still be executed. -/
structure Parting (bounds : Bounds) (now : ℕ) (b : Beat) : Prop where
  present : b.Until now
  pending : ∀ issued, b.pending = some issued → issued ≤ now
  departed : ∀ c, b.departed = some c → (b.phase = .leaving ∨ b.phase = .gone) ∧
    (∀ issued, b.pending = some issued → issued ≤ c) ∧ b.Until (c + bounds.delay)

theorem parting_init : init.Parting bounds now :=
  ⟨⟨(fun _ h => nomatch h), (fun _ _ h => nomatch h)⟩, (fun _ h => nomatch h),
    (fun _ h => nomatch h)⟩

theorem Parting.not_departed (hb : b.Parting bounds now) (hleaving : b.phase ≠ .leaving)
    (hgone : b.phase ≠ .gone) (c : ℕ) : b.departed ≠ some c := by
  intro hc
  rcases (hb.departed c hc).1 with h | h
  · exact hleaving h
  · exact hgone h

theorem Parting.executeSet (hb : b.Parting bounds now) (hdue : b.Due bounds now) {issued : ℕ}
    (hpending : b.pending = some issued) :
    Parting bounds now { b with pending := none, stream := b.stream ++ [.set now] } := by
  refine ⟨⟨hb.present.concat le_rfl, hb.present.key⟩, (fun _ h => nomatch h), ?_⟩
  intro c hc
  obtain ⟨hphase, hissued, huntil⟩ := hb.departed c hc
  have hle := hissued issued hpending
  have hdelay := hdue.pending issued hpending
  exact ⟨hphase, (fun _ h => nomatch h), huntil.concat (by omega), huntil.key⟩

theorem Parting.step (hb : b.Parting bounds now) (hdue : b.Due bounds now)
    (h : b.step now a = some b') : b'.Parting bounds now := by
  cases step_of_eq_some h with
  | executeSet hpending => exact hb.executeSet hdue hpending
  | replicate hcons =>
    refine ⟨⟨hb.present.tail hcons, hb.present.replay hcons⟩, hb.pending, ?_⟩
    intro c hc
    obtain ⟨hphase, hissued, huntil⟩ := hb.departed c hc
    exact ⟨hphase, hissued, huntil.tail hcons, huntil.replay hcons⟩
  | register hphase =>
    have hnot := hb.not_departed (by simp [hphase]) (by simp [hphase])
    exact ⟨⟨hb.present.stream, hb.present.key⟩, fun issued h => (Option.some.inj h).ge,
      fun c hc => absurd hc (hnot c)⟩
  | registered hpending hphase =>
    have hnot := hb.not_departed (by simp [hphase]) (by simp [hphase])
    exact ⟨⟨hb.present.stream, hb.present.key⟩, hb.pending, fun c hc => absurd hc (hnot c)⟩
  | announced hpending hphase =>
    have hnot := hb.not_departed (by simp [hphase]) (by simp [hphase])
    exact ⟨⟨hb.present.stream, hb.present.key⟩, fun issued h => (Option.some.inj h).ge,
      fun c hc => absurd hc (hnot c)⟩
  | beaten hpending hphase =>
    have hnot := hb.not_departed (by simp [hphase]) (by simp [hphase])
    exact ⟨⟨hb.present.stream, hb.present.key⟩, hb.pending, fun c hc => absurd hc (hnot c)⟩
  | wake hphase hle =>
    have hnot := hb.not_departed (by simp [hphase]) (by simp [hphase])
    exact ⟨⟨hb.present.stream, hb.present.key⟩, fun issued h => (Option.some.inj h).ge,
      fun c hc => absurd hc (hnot c)⟩
  | cancel hserving =>
    refine ⟨⟨hb.present.stream, hb.present.key⟩, hb.pending, ?_⟩
    intro c hc
    cases hc
    have huntil := hb.present.mono (Nat.le_add_right now bounds.delay)
    exact ⟨Or.inl rfl, hb.pending, huntil.stream, huntil.key⟩
  | executeDelete hphase =>
    have hset : ∀ t, b.Until t → ∀ executed, .set executed ∈ b.stream ++ [.delete] →
        executed ≤ t := by
      intro t ht executed hmem
      rcases List.mem_append.mp hmem with hmem | hmem
      · exact ht.stream executed hmem
      · cases List.mem_singleton.mp hmem
    refine ⟨⟨hset now hb.present, hb.present.key⟩, hb.pending, ?_⟩
    intro c hc
    obtain ⟨-, hissued, huntil⟩ := hb.departed c hc
    exact ⟨Or.inr rfl, hissued, hset _ huntil, huntil.key⟩
  | crash hphase =>
    refine ⟨⟨hb.present.stream, hb.present.key⟩, hb.pending, ?_⟩
    intro c hc
    refine ⟨Or.inr rfl, ?_⟩
    cases hdeparted : b.departed with
    | some d =>
      rw [hdeparted] at hc
      cases hc
      obtain ⟨-, hissued, huntil⟩ := hb.departed c hdeparted
      exact ⟨hissued, huntil.stream, huntil.key⟩
    | none =>
      rw [hdeparted] at hc
      cases hc
      have huntil := hb.present.mono (Nat.le_add_right now bounds.delay)
      exact ⟨hb.pending, huntil.stream, huntil.key⟩

theorem Parting.elapse (hb : b.Parting bounds now) {later : ℕ} (hle : now ≤ later) :
    b.Parting bounds later :=
  ⟨hb.present.mono hle, fun issued hissued => (hb.pending issued hissued).trans hle, hb.departed⟩

end Beat

namespace Detector

variable {hash : String → ℕ} {interval : ℕ} {bounds : Bounds} {s u : Detector}
  {a : DetectorAction}

/-- How old the scan behind the ring may be, by the phase of the monitor. -/
def Fresh (interval : ℕ) (bounds : Bounds) (s : Detector) (began : ℕ) : Prop :=
  match s.monitor with
  | .off => False
  | .scanning since => since ≤ began + bounds.duration + interval + bounds.lag
  | .sleeping wakeup => wakeup ≤ began + bounds.duration + interval

/-- The ring is the one of the last scan; that scan is fresh, and the workers it found had a
key when it began. -/
structure RingOf (hash : String → ℕ) (interval : ℕ) (bounds : Bounds) (s : Detector) : Prop where
  due : s.MonitorDue bounds s.now
  scanning : ∀ since, s.monitor = .scanning since → since ≤ s.now
  sleeping : ∀ wakeup, s.monitor = .sleeping wakeup → wakeup ≤ s.now + interval
  fresh : ∀ began ws, s.scanned = some (began, ws) → began ≤ s.now ∧ s.Fresh interval bounds began
  found : ∀ began ws, s.scanned = some (began, ws) → ∀ w ∈ ws, ∃ since last,
    (s.workers w).key = some (since, last) ∧ began ≤ last
  ring : ∀ key w, s.registry.ring.getWorker hash key = .ok (some w) →
    ∃ began ws, s.scanned = some (began, ws) ∧ w ∈ ws

theorem ringOf_start : RingOf hash interval bounds start := by
  constructor
  · trivial
  · intro since h
    cases h
  · intro wakeup h
    cases h
  · intro began ws h
    cases h
  · intro began ws h
    cases h
  · intro key w h
    cases h

theorem Returns.found {began : ℕ} {scan : List String} (h : s.Returns began scan) {w : String}
    (hw : w ∈ listWorkers scan) :
    ∃ since last, (s.workers w).key = some (since, last) ∧ began ≤ last := by
  obtain ⟨key, hkey, rfl⟩ := List.mem_map.mp (Sequences.mem_sorted.mp hw)
  obtain ⟨v, since, last, rfl, hv, hlast⟩ := h.only key hkey
  rw [workerOfKey_hbKey]
  exact ⟨since, last, hv, hlast.le⟩

theorem mem_of_getWorker_refresh (s : Detector) (began : ℕ) {scan : List String} {key w : String}
    (h : (s.refresh hash began scan).registry.ring.getWorker hash key = .ok (some w)) :
    w ∈ listWorkers scan :=
  ConsistentHashRing.mem_of_getWorker_replaceWorkers h

theorem key_step {b b' : Beat} {action : BeatAction} {now began since last : ℕ}
    (h : b.step now action = some b') (hkey : b.key = some (since, last)) (hbegan : began ≤ now)
    (hlast : began ≤ last) : ∃ since last, b'.key = some (since, last) ∧ began ≤ last := by
  cases Beat.step_of_eq_some h with
  | @replicate write stream hcons =>
    dsimp only
    rw [hkey]
    cases write with
    | delete => exact ⟨since, min last now, rfl, le_min hlast hbegan⟩
    | set executed =>
      simp only [Beat.replay, Beat.setKey]
      split_ifs with hnow
      · exact ⟨since, min last now, rfl, le_min hlast hbegan⟩
      · exact ⟨_, _, rfl, by omega⟩
      · exact ⟨_, _, rfl, by omega⟩
  | register | executeSet | registered | announced | beaten | wake | cancel | executeDelete
  | crash => exact ⟨since, last, hkey, hlast⟩

theorem RingOf.step (hs : s.RingOf hash interval bounds)
    (h : s.step hash interval a = some u) (htimely : s.Timely bounds a) :
    u.RingOf hash interval bounds := by
  have hdue := hs.due
  cases step_of_eq_some h with
  | elapse duration =>
    refine ⟨htimely.2, ?_, ?_, ?_, hs.found, hs.ring⟩
    · intro since hmonitor
      exact (hs.scanning since hmonitor).trans (Nat.le_add_right _ _)
    · intro wakeup hmonitor
      have hle := hs.sleeping wakeup hmonitor
      dsimp only
      omega
    · intro began ws hscanned
      obtain ⟨hbegan, hfresh⟩ := hs.fresh began ws hscanned
      exact ⟨hbegan.trans (Nat.le_add_right _ _), hfresh⟩
  | @worker w action b hb =>
    refine ⟨hs.due, hs.scanning, hs.sleeping, hs.fresh, ?_, hs.ring⟩
    intro began ws hscanned v hv
    obtain ⟨since, last, hkey, hlast⟩ := hs.found began ws hscanned v hv
    rcases eq_or_ne v w with rfl | hne
    · dsimp only
      rw [Function.update_self]
      exact key_step hb hkey (hs.fresh began ws hscanned).1 hlast
    · dsimp only
      rw [Function.update_of_ne hne]
      exact ⟨since, last, hkey, hlast⟩
  | startMonitor hmonitor =>
    refine ⟨Nat.le_add_right _ _, ?_, ?_, ?_, hs.found, hs.ring⟩
    · intro since hscanning
      cases hscanning
      exact le_rfl
    · intro wakeup hsleeping
      cases hsleeping
    · intro began ws hscanned
      have hfresh := (hs.fresh began ws hscanned).2
      simp only [Fresh, hmonitor] at hfresh
  | @monitorRefresh since scan hmonitor =>
    have hreturns := htimely since hmonitor
    refine ⟨?_, ?_, ?_, ?_, ?_,
      fun key w hget => ⟨_, _, rfl, mem_of_getWorker_refresh s since hget⟩⟩
    · dsimp only [MonitorDue, refresh]
      omega
    · intro since' hscanning
      cases hscanning
    · intro wakeup hsleeping
      cases hsleeping
      exact le_rfl
    · intro began ws hscanned
      cases hscanned
      refine ⟨hs.scanning since hmonitor, ?_⟩
      simp only [MonitorDue, hmonitor] at hdue
      dsimp only [Fresh, refresh]
      omega
    · intro began ws hscanned w hw
      cases hscanned
      exact hreturns.found hw
  | @monitorWake wakeup hmonitor hle =>
    simp only [MonitorDue, hmonitor] at hdue
    refine ⟨Nat.le_add_right _ _, ?_, ?_, ?_, hs.found, hs.ring⟩
    · intro since hscanning
      cases hscanning
      exact le_rfl
    · intro wakeup' hsleeping
      cases hsleeping
    · intro began ws hscanned
      obtain ⟨hbegan, hfresh⟩ := hs.fresh began ws hscanned
      simp only [Fresh, hmonitor] at hfresh
      refine ⟨hbegan, ?_⟩
      dsimp only [Fresh]
      omega
  | @eventRefresh began scan hmonitor hle =>
    obtain ⟨hduration, hreturns⟩ := htimely
    refine ⟨hs.due, hs.scanning, hs.sleeping, ?_, ?_,
      fun key w hget => ⟨_, _, rfl, mem_of_getWorker_refresh s began hget⟩⟩
    · intro began' ws hscanned
      cases hscanned
      refine ⟨hle, ?_⟩
      dsimp only [Fresh, refresh]
      split
      · next hoff => exact hmonitor hoff
      · next since hscanning =>
        have hsince := hs.scanning since hscanning
        omega
      · next wakeup hsleeping =>
        have hwakeup := hs.sleeping wakeup hsleeping
        omega
    · intro began' ws hscanned w hw
      cases hscanned
      exact hreturns.found hw

/-- The scan behind the ring is at most two scans, a sleep and a wakeup old. -/
theorem RingOf.le_of_scanned (hs : s.RingOf hash interval bounds) {began : ℕ} {ws : List String}
    (hscanned : s.scanned = some (began, ws)) :
    s.now ≤ began + 2 * bounds.duration + interval + bounds.lag := by
  have hdue := hs.due
  have hfresh := (hs.fresh began ws hscanned).2
  unfold MonitorDue at hdue
  unfold Fresh at hfresh
  split at hfresh
  · exact hfresh.elim
  · next since hscanning =>
    rw [hscanning] at hdue
    dsimp only at hdue
    omega
  · next wakeup hsleeping =>
    rw [hsleeping] at hdue
    dsimp only at hdue
    omega

/-- A worker that has left, by a shutdown or a crash, is not the answer to any lookup once the
last `SET` under way at that time may have been executed, the key it sets has expired, the
monitor has slept and woken, and two scans have had the time to return. -/
theorem departed_not_routed {acts : List DetectorAction}
    (hrun : Runs.run (step hash interval) start acts = some s)
    (htimely : Runs.EveryStep (step hash interval) start acts (Timely bounds)) {w : String} {c : ℕ}
    (hdeparted : (s.workers w).departed = some c)
    (hlate : c + bounds.delay + hbTtl + interval + bounds.lag + 2 * bounds.duration < s.now)
    (key : String) : s.registry.ring.getWorker hash key ≠ .ok (some w) := by
  have hinv : (∀ w, (s.workers w).Due bounds s.now ∧
      (s.workers w).Parting bounds s.now) ∧ s.RingOf hash interval bounds := by
    refine Runs.invariant_of_everyStep
      (I := fun t : Detector => (∀ w, (t.workers w).Due bounds t.now ∧
        (t.workers w).Parting bounds t.now) ∧ t.RingOf hash interval bounds) ?_ ?_ htimely hrun
    · intro t a v ht hta hstep
      refine ⟨?_, ht.2.step hstep hta⟩
      exact forall_workers_step (P := Beat.Parting bounds)
        (fun _ _ _ _ hdue hb hbeat => hb.step hdue hbeat)
        (fun _ _ _ hle hb => hb.elapse hle) ht.1 hstep hta
    · exact ⟨fun w => ⟨Beat.due_init bounds 0, Beat.parting_init⟩, ringOf_start⟩
  obtain ⟨hworkers, hring⟩ := hinv
  intro hget
  obtain ⟨began, ws, hscanned, hw⟩ := hring.ring key w hget
  obtain ⟨since, last, hkey, hbegan⟩ := hring.found began ws hscanned w hw
  have hlast := ((hworkers w).2.departed c hdeparted).2.2.key since last hkey
  have hfresh := hring.le_of_scanned hscanned
  omega

theorem Reached.wakeMonitor (hs : Reached hash interval bounds s) {wakeup : ℕ}
    (hmonitor : s.monitor = .sleeping wakeup) (hle : wakeup ≤ s.now) :
    Reached hash interval bounds { s with monitor := .scanning s.now } := by
  apply hs.step (a := .monitorWake) _ trivial
  simp only [Detector.step, hmonitor, if_pos hle]

/-- A worker that crashes before the first scan of a monitor with a long interval; commands,
replication, scans and the wakeup are as slow as they may be. -/
theorem departed_not_routed_crash : ∃ s,
    Reached String.length 20000 ⟨5, 5, 10, 5⟩ s ∧ (s.workers "w").departed = some 10 ∧
      ∀ key, s.registry.ring.getWorker String.length key ≠ .ok (some "w") := by
  have h0 : Reached String.length 20000 ⟨5, 5, 10, 5⟩ (solo "w" 0 .init) := reached_start
  have h1 := h0.beat .register rfl
  have h2 := h1.wait 5 (by decide) ⟨by simp, by simp, by decide⟩
  have h3 : Reached String.length 20000 ⟨5, 5, 10, 5⟩
      (solo "w" 5 ⟨.announcing 5, none, [.set 5], none, none, none⟩) :=
    (h2.beat .executeSet rfl).beat .reply rfl
  have h4 := h3.wait 10 (by decide) ⟨by simp, by simp, by decide⟩
  have h5 := h4.beat .replicate rfl
  have h6 : Reached String.length 20000 ⟨5, 5, 10, 5⟩
      (solo "w" 10 ⟨.gone, none, [], some (10, 5 + hbTtl), some 10, some 10⟩) :=
    h5.beat .crash rfl
  have h7 := h6.step (a := .startMonitor) rfl trivial
  have h8 := h7.step (a := .elapse 10) rfl
    ⟨due_of_alone rfl ⟨by simp, by simp, trivial⟩, Nat.le_refl 20⟩
  have h9 := h8.step (a := .monitorRefresh [hbKey "w"]) rfl fun since hsince => by
    cases hsince
    exact returns_of_alone rfl rfl (by simp) (by simp; decide)
  have h10 := h9.step (a := .elapse 20005) rfl
    ⟨due_of_alone rfl ⟨by simp, by simp, trivial⟩, Nat.le_refl 20025⟩
  have h11 := h10.wakeMonitor rfl (by decide)
  have h12 := h11.step (a := .elapse 10) rfl
    ⟨due_of_alone rfl ⟨by simp, by simp, trivial⟩, Nat.le_refl 20035⟩
  have h13 := h12.step (a := .monitorRefresh []) rfl fun since hsince => by
    cases hsince
    exact returns_of_alone rfl rfl (fun h => absurd h (by decide)) (by simp)
  have h14 := h13.step (a := .elapse 10006) rfl
    ⟨due_of_alone rfl ⟨by simp, by simp, trivial⟩, (by decide : 30041 ≤ 40040)⟩
  refine ⟨_, h14, rfl, fun key => ?_⟩
  obtain ⟨acts, hrun, htimely⟩ := h14
  exact departed_not_routed hrun htimely rfl (by decide) key

end Detector

end LegalLens.Coordination
