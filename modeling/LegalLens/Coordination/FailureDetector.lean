import LegalLens.Coordination.HeartbeatTtl

/-!
# Heartbeats as a failure detector

Is a worker that goes on beating ever missed by a scan? The answer is a pair of inequalities
between the time to live of its key, the interval of its loop and the delays of the
environment, and they are exact.
-/

namespace LegalLens.Coordination

open Workers WorkerRegistry

/-- The longest time from one `SET` to the next: three commands at the start, and the reply, the
sleep, the wakeup and the next command in the loop. -/
def Bounds.gap (bounds : Bounds) : ℕ :=
  max (3 * bounds.delay) (2 * bounds.delay + heartbeatInterval + bounds.lag)

/-- A `SET` reaches the replica before the key that the one before has set expires there. -/
def Bounds.Sustained (bounds : Bounds) : Prop := bounds.gap + bounds.replication < hbTtl

namespace Beat

variable {bounds : Bounds} {now : ℕ} {b b' : Beat} {a : BeatAction}

/-- The ends of presence that the replica knows of or will learn of. -/
def ends (key : Option (ℕ × ℕ)) (sets : List ℕ) : List ℕ :=
  (key.map Prod.snd).toList ++ sets.map (· + hbTtl)

/-- Each `SET` follows soon on the one before; counted from `t`, the last one lasts for the time
to live less `slack`. -/
def Written (bounds : Bounds) (b : Beat) (t slack : ℕ) : Prop :=
  ∃ sets last, b.stream = sets.map Write.set ∧ b.registered = b.key.map Prod.fst ∧
    (ends b.key sets).IsChain (fun x y => y ≤ x + bounds.gap) ∧
    (ends b.key sets).getLast? = some last ∧ t + hbTtl ≤ last + slack

/-- The writes of a worker that has not left, by its phase. -/
def Kept (bounds : Bounds) (now : ℕ) (b : Beat) : Prop :=
  match b.phase with
  | .unborn => b.pending = none ∧ b.stream = [] ∧ b.key = none ∧ b.registered = none
  | .registering since => since ≤ now ∧
      (b.pending = some since ∧ b.stream = [] ∧ b.key = none ∧ b.registered = none ∨
        b.pending = none ∧ b.Written bounds since 0)
  | .announcing since => b.pending = none ∧ b.Written bounds since bounds.delay
  | .beating since => since ≤ now ∧
      (b.pending = some since ∧ b.Written bounds since
          (max (2 * bounds.delay) (bounds.delay + heartbeatInterval + bounds.lag)) ∨
        b.pending = none ∧ b.Written bounds since 0)
  | .sleeping wakeup =>
      b.pending = none ∧ b.Written bounds wakeup (bounds.delay + heartbeatInterval)
  | .leaving | .gone => True

theorem due_init (bounds : Bounds) (now : ℕ) : init.Due bounds now :=
  ⟨(fun _ h => nomatch h), (fun _ h => nomatch h), trivial⟩

theorem due_step (hdue : b.Due bounds now) (h : b.step now a = some b') : b'.Due bounds now := by
  obtain ⟨hpending, hstream, hphase⟩ := hdue
  cases step_of_eq_some h with
  | executeSet =>
    refine ⟨(fun _ h => nomatch h), ?_, hphase⟩
    intro executed hmem
    rcases List.mem_append.mp hmem with hmem | hmem
    · exact hstream executed hmem
    · cases List.mem_singleton.mp hmem
      exact Nat.le_add_right _ _
  | replicate hcons =>
    refine ⟨hpending, ?_, hphase⟩
    intro executed hmem
    apply hstream
    rw [hcons]
    exact List.mem_cons_of_mem _ hmem
  | registered => exact ⟨hpending, hstream, by simp⟩
  | beaten =>
    refine ⟨hpending, hstream, ?_⟩
    dsimp only
    omega
  | register | announced | wake =>
    refine ⟨?_, hstream, by simp⟩
    intro issued hissued
    cases hissued
    exact Nat.le_add_right _ _
  | executeDelete =>
    refine ⟨hpending, ?_, trivial⟩
    intro executed hmem
    rcases List.mem_append.mp hmem with hmem | hmem
    · exact hstream executed hmem
    · cases List.mem_singleton.mp hmem
  | cancel | crash => exact ⟨hpending, hstream, trivial⟩

theorem Written.mono {t slack t' slack' : ℕ} (h : b.Written bounds t slack)
    (hle : t' + slack ≤ t + slack') : b.Written bounds t' slack' := by
  obtain ⟨sets, last, hstream, hregistered, hchain, hlast, ht⟩ := h
  exact ⟨sets, last, hstream, hregistered, hchain, hlast, by omega⟩

theorem Written.executeSet {t slack : ℕ} (h : b.Written bounds t slack) (now : ℕ)
    (hnow : now + slack ≤ t + bounds.gap) :
    Written bounds { b with pending := none, stream := b.stream ++ [.set now] } now 0 := by
  obtain ⟨sets, last, hstream, hregistered, hchain, hlast, ht⟩ := h
  have hends : ends b.key (sets ++ [now]) = ends b.key sets ++ [now + hbTtl] := by
    simp [ends]
  refine ⟨sets ++ [now], now + hbTtl, ?_, hregistered, ?_, ?_, le_rfl⟩
  · rw [hstream, List.map_append, List.map_singleton]
  · rw [hends, List.isChain_append]
    refine ⟨hchain, List.isChain_singleton _, ?_⟩
    intro x hx y hy
    rw [hlast] at hx
    cases hx
    cases hy
    omega
  · rw [hends, List.getLast?_concat]

theorem written_executeSet_init (bounds : Bounds) (now : ℕ) (hstream : b.stream = [])
    (hkey : b.key = none) (hregistered : b.registered = none) :
    Written bounds { b with pending := none, stream := b.stream ++ [.set now] } now 0 := by
  refine ⟨[now], now + hbTtl, ?_, ?_, ?_, ?_, le_rfl⟩
  · rw [hstream]
    rfl
  · rw [hregistered, hkey]
    rfl
  · simp [ends, hkey]
  · simp [ends, hkey]

theorem Written.lt_of_replicate (hbounds : bounds.Sustained) (hdue : b.Due bounds now)
    {t slack : ℕ} (h : b.Written bounds t slack) (r last : ℕ) (hkey : b.key = some (r, last))
    (hstream : b.stream ≠ []) : now < last := by
  obtain ⟨sets, x, hsets, -, hchain, -, -⟩ := h
  unfold Bounds.Sustained at hbounds
  cases sets with
  | nil => exact absurd hsets hstream
  | cons executed sets =>
    have hle := hdue.stream executed (by rw [hsets]; exact List.mem_cons_self)
    simp only [ends, hkey, Option.map_some, Option.toList_some, List.map_cons,
      List.singleton_append, List.isChain_cons_cons] at hchain
    have hgap := hchain.1
    omega

theorem Written.replicate (hbounds : bounds.Sustained) (hdue : b.Due bounds now) {t slack : ℕ}
    (h : b.Written bounds t slack) {write : Write} {stream : List Write}
    (hcons : b.stream = write :: stream) :
    Written bounds { b with
      stream := stream, key := replay now b.key write
      registered := b.registered <|> (replay now b.key write).map Prod.fst } t slack := by
  have hlt := fun r last hkey => h.lt_of_replicate hbounds hdue r last hkey (by simp [hcons])
  obtain ⟨sets, x, hsets, hregistered, hchain, hlast, ht⟩ := h
  cases sets with
  | nil =>
    rw [hcons] at hsets
    cases hsets
  | cons executed sets =>
    rw [hcons] at hsets
    cases hsets
    have hle := hdue.stream executed (by rw [hcons]; exact List.mem_cons_self)
    have hnow : ¬executed + hbTtl ≤ now := by
      unfold Bounds.Sustained at hbounds
      omega
    cases hkey : b.key with
    | none =>
      rw [hkey] at hregistered hchain hlast
      refine ⟨sets, x, rfl, ?_, ?_, ?_, ht⟩
      · simp [hregistered, replay, setKey, hnow]
      · simpa [ends, replay, setKey, hnow] using hchain
      · simpa [ends, replay, setKey, hnow] using hlast
    | some interval =>
      obtain ⟨r, last⟩ := interval
      have hpresent := hlt r last hkey
      rw [hkey] at hregistered hchain hlast
      refine ⟨sets, x, rfl, ?_, ?_, ?_, ht⟩
      · simp [hregistered, replay, setKey, hnow, hpresent]
      · have htail := hchain.tail
        simpa [ends, replay, setKey, hnow] using htail
      · simpa [ends, replay, setKey, hnow] using hlast

theorem Written.present (hbounds : bounds.Sustained) (hdue : b.Due bounds now) {t slack : ℕ}
    (h : b.Written bounds t slack) (ht : now + slack < t + hbTtl) {r : ℕ}
    (hregistered : b.registered = some r) : ∃ last, b.key = some (r, last) ∧ now < last := by
  have hlt := h.lt_of_replicate hbounds hdue
  obtain ⟨sets, x, hsets, hfst, -, hlast, hx⟩ := h
  rw [hregistered] at hfst
  obtain ⟨⟨r', last⟩, hkey, rfl⟩ := Option.map_eq_some_iff.mp hfst.symm
  refine ⟨last, hkey, ?_⟩
  cases sets with
  | nil =>
    simp only [ends, hkey, Option.map_some, Option.toList_some, List.map_nil, List.append_nil,
      List.getLast?_singleton, Option.some.injEq] at hlast
    omega
  | cons executed sets => exact hlt r' last hkey (by simp [hsets])

theorem present_of_serving (hbounds : bounds.Sustained) (hdue : b.Due bounds now)
    (hkept : b.Kept bounds now) (hserving : b.Serving) {r : ℕ}
    (hregistered : b.registered = some r) : ∃ last, b.key = some (r, last) ∧ now < last := by
  have hphase := hdue.phase
  have hgap : bounds.gap < hbTtl := (Nat.le_add_right _ _).trans_lt hbounds
  unfold Bounds.gap at hgap
  unfold Serving at hserving
  unfold Kept at hkept
  split at hserving
  · next since hb =>
    rw [hb] at hkept hphase
    dsimp only at hphase
    exact hkept.2.present hbounds hdue (by omega) hregistered
  · next since hb =>
    rw [hb] at hkept hphase
    dsimp only at hphase
    rcases hkept.2 with ⟨-, hwritten⟩ | ⟨-, hwritten⟩
    · exact hwritten.present hbounds hdue (by omega) hregistered
    · exact hwritten.present hbounds hdue (by omega) hregistered
  · next wakeup hb =>
    rw [hb] at hkept hphase
    dsimp only at hphase
    exact hkept.2.present hbounds hdue (by omega) hregistered
  · exact hserving.elim

theorem kept_executeSet (hdue : b.Due bounds now) (hkept : b.Kept bounds now) {issued : ℕ}
    (hpending : b.pending = some issued) :
    Kept bounds now { b with pending := none, stream := b.stream ++ [.set now] } := by
  have hphase := hdue.phase
  unfold Kept at hkept ⊢
  dsimp only
  split at hkept
  · next hb =>
    rw [hkept.1] at hpending
    cases hpending
  · next since hb =>
    obtain ⟨hsince, ⟨-, hstream, hkey, hregistered⟩ | ⟨hnone, -⟩⟩ := hkept
    · have hwritten := written_executeSet_init bounds now hstream hkey hregistered
      exact ⟨hsince, Or.inr ⟨rfl, hwritten.mono (by omega)⟩⟩
    · rw [hnone] at hpending
      cases hpending
  · next since hb =>
    rw [hkept.1] at hpending
    cases hpending
  · next since hb =>
    rw [hb] at hphase
    dsimp only at hphase
    obtain ⟨hsince, ⟨-, hwritten⟩ | ⟨hnone, -⟩⟩ := hkept
    · have hexecuted := hwritten.executeSet now (by unfold Bounds.gap; omega)
      exact ⟨hsince, Or.inr ⟨rfl, hexecuted.mono (by omega)⟩⟩
    · rw [hnone] at hpending
      cases hpending
  · next wakeup hb =>
    rw [hkept.1] at hpending
    cases hpending
  · trivial
  · trivial

theorem kept_replicate (hbounds : bounds.Sustained) (hdue : b.Due bounds now)
    (hkept : b.Kept bounds now) {write : Write} {stream : List Write}
    (hcons : b.stream = write :: stream) :
    Kept bounds now { b with
      stream := stream, key := replay now b.key write
      registered := b.registered <|> (replay now b.key write).map Prod.fst } := by
  unfold Kept at hkept ⊢
  dsimp only
  split at hkept
  · next hb =>
    rw [hkept.2.1] at hcons
    cases hcons
  · next since hb =>
    obtain ⟨hsince, ⟨-, hstream, -⟩ | ⟨hnone, hwritten⟩⟩ := hkept
    · rw [hstream] at hcons
      cases hcons
    · exact ⟨hsince, Or.inr ⟨hnone, hwritten.replicate hbounds hdue hcons⟩⟩
  · next since hb => exact ⟨hkept.1, hkept.2.replicate hbounds hdue hcons⟩
  · next since hb =>
    obtain ⟨hsince, ⟨hpending, hwritten⟩ | ⟨hnone, hwritten⟩⟩ := hkept
    · exact ⟨hsince, Or.inl ⟨hpending, hwritten.replicate hbounds hdue hcons⟩⟩
    · exact ⟨hsince, Or.inr ⟨hnone, hwritten.replicate hbounds hdue hcons⟩⟩
  · next wakeup hb => exact ⟨hkept.1, hkept.2.replicate hbounds hdue hcons⟩
  · trivial
  · trivial

theorem kept_step (hbounds : bounds.Sustained) (hdue : b.Due bounds now)
    (hkept : b.Kept bounds now) (h : b.step now a = some b') : b'.Kept bounds now := by
  have hphase := hdue.phase
  cases step_of_eq_some h with
  | register hb =>
    unfold Kept at hkept ⊢
    rw [hb] at hkept
    exact ⟨le_rfl, Or.inl ⟨rfl, hkept.2⟩⟩
  | executeSet hpending => exact kept_executeSet hdue hkept hpending
  | replicate hcons => exact kept_replicate hbounds hdue hkept hcons
  | @registered since hpending hb =>
    unfold Kept at hkept ⊢
    rw [hb] at hkept hphase
    dsimp only at hphase
    obtain ⟨-, ⟨hsome, -⟩ | ⟨-, hwritten⟩⟩ := hkept
    · rw [hpending] at hsome
      cases hsome
    · exact ⟨hpending, hwritten.mono (by omega)⟩
  | @announced since hpending hb =>
    unfold Kept at hkept ⊢
    rw [hb] at hkept hphase
    dsimp only at hphase
    exact ⟨le_rfl, Or.inl ⟨rfl, hkept.2.mono (by omega)⟩⟩
  | @beaten since hpending hb =>
    unfold Kept at hkept ⊢
    rw [hb] at hkept hphase
    dsimp only at hphase
    obtain ⟨-, ⟨hsome, -⟩ | ⟨-, hwritten⟩⟩ := hkept
    · rw [hpending] at hsome
      cases hsome
    · exact ⟨hpending, hwritten.mono (by omega)⟩
  | @wake wakeup hb hle =>
    unfold Kept at hkept ⊢
    rw [hb] at hkept hphase
    dsimp only at hphase
    exact ⟨le_rfl, Or.inl ⟨rfl, hkept.2.mono (by omega)⟩⟩
  | cancel | executeDelete | crash => trivial

theorem Kept.elapse (hkept : b.Kept bounds now) {later : ℕ} (hle : now ≤ later) :
    b.Kept bounds later := by
  unfold Kept at hkept ⊢
  split at hkept
  · exact hkept
  · exact ⟨hkept.1.trans hle, hkept.2⟩
  · exact hkept
  · exact ⟨hkept.1.trans hle, hkept.2⟩
  · exact hkept
  · trivial
  · trivial

end Beat

namespace Detector

variable {hash : String → ℕ} {interval : ℕ} {bounds : Bounds} {s u : Detector}
  {a : DetectorAction}

theorem workers_step (h : s.step hash interval a = some u) :
    u.workers = s.workers ∨ ∃ w action b, a = .worker w action ∧
      (s.workers w).step s.now action = some b ∧ u.workers = Function.update s.workers w b ∧
      u.now = s.now := by
  cases step_of_eq_some h with
  | worker hb => exact Or.inr ⟨_, _, _, rfl, hb, rfl, rfl⟩
  | _ => exact Or.inl rfl

theorem now_step (h : s.step hash interval a = some u) (htimely : s.Timely bounds a) :
    u.now = s.now ∨ s.now ≤ u.now ∧ u.workers = s.workers ∧
      ∀ w, (s.workers w).Due bounds u.now := by
  cases step_of_eq_some h with
  | elapse duration => exact Or.inr ⟨Nat.le_add_right _ _, rfl, htimely.1⟩
  | _ => exact Or.inl rfl

/-- A property of workers that their steps and the passing of time keep holds in every timely
run. -/
theorem forall_workers_step {P : ℕ → Beat → Prop}
    (hbeat : ∀ now b action b', b.Due bounds now → P now b →
      b.step now action = some b' → P now b')
    (htime : ∀ now later b, now ≤ later → P now b → P later b)
    (hs : ∀ w, (s.workers w).Due bounds s.now ∧ P s.now (s.workers w))
    (h : s.step hash interval a = some u) (htimely : s.Timely bounds a) (w : String) :
    (u.workers w).Due bounds u.now ∧ P u.now (u.workers w) := by
  rcases workers_step h with hsame | ⟨v, action, b, rfl, hb, hworkers, hnow⟩
  · rw [hsame]
    rcases now_step h htimely with hnow | ⟨hle, -, hdue⟩
    · rw [hnow]
      exact hs w
    · exact ⟨hdue w, htime _ _ _ hle (hs w).2⟩
  · rw [hworkers, hnow]
    rcases eq_or_ne w v with rfl | hne
    · rw [Function.update_self]
      exact ⟨Beat.due_step (hs w).1 hb, hbeat _ _ _ _ (hs w).1 (hs w).2 hb⟩
    · rw [Function.update_of_ne hne]
      exact hs w

/-- Whatever a scan returns that began after a serving worker had registered, the worker is
among those found. -/
def Accurate (s : Detector) : Prop :=
  ∀ began scan, began ≤ s.now → s.Returns began scan → ∀ w r, (s.workers w).Serving →
    (s.workers w).registered = some r → r ≤ began → w ∈ listWorkers scan

/-- Within the bounds, every reachable state is accurate. -/
theorem accurate_of_sustained (hbounds : bounds.Sustained)
    {acts : List DetectorAction} (hrun : Runs.run (step hash interval) start acts = some s)
    (htimely : Runs.EveryStep (step hash interval) start acts (Timely bounds)) : s.Accurate := by
  have hall : ∀ w, (s.workers w).Due bounds s.now ∧
      (s.workers w).Kept bounds s.now := by
    refine Runs.invariant_of_everyStep
      (I := fun t : Detector => ∀ w, (t.workers w).Due bounds t.now ∧
        (t.workers w).Kept bounds t.now) ?_ ?_ htimely hrun
    · intro t a v ht hta hstep
      exact forall_workers_step (P := Beat.Kept bounds)
        (fun _ _ _ _ hdue hkept hb => Beat.kept_step hbounds hdue hkept hb)
        (fun _ _ _ hle hkept => hkept.elapse hle) ht hstep hta
    · intro w
      exact ⟨Beat.due_init bounds 0, rfl, rfl, rfl, rfl⟩
  intro began scan hbegan hreturns w r hserving hregistered hr
  obtain ⟨last, hkey, hlast⟩ :=
    Beat.present_of_serving hbounds (hall w).1 (hall w).2 hserving hregistered
  exact Sequences.mem_sorted.mpr
    (List.mem_map.mpr ⟨_, hreturns.all w r last hkey hr hlast, workerOfKey_hbKey w⟩)

section Solo

/-- One worker, before any dispatcher process has started. -/
def solo (w : String) (now : ℕ) (b : Beat) : Detector :=
  ⟨now, Function.update (fun _ => .init) w b, .off, .init, none⟩

/-- Some timely run leads there. -/
def Reached (hash : String → ℕ) (interval : ℕ) (bounds : Bounds) (s : Detector) : Prop :=
  ∃ acts, Runs.run (step hash interval) start acts = some s ∧
    Runs.EveryStep (step hash interval) start acts (Timely bounds)

theorem Reached.step (hs : Reached hash interval bounds s) (h : s.step hash interval a = some u)
    (htimely : s.Timely bounds a) : Reached hash interval bounds u := by
  obtain ⟨acts, hrun, hacts⟩ := hs
  exact ⟨acts ++ [a], Runs.run_concat_eq_some.mpr ⟨s, hrun, h⟩,
    (Runs.everyStep_concat_iff hrun).mpr ⟨hacts, htimely⟩⟩

variable {w : String} {now : ℕ} {b b' : Beat}

theorem reached_start : Reached hash interval bounds (solo w 0 .init) := by
  refine ⟨[], ?_, Runs.everyStep_nil⟩
  have hstart : solo w 0 .init = start := by
    simp [solo, start]
  rw [hstart, Runs.run_nil]

theorem due_of_alone (hworkers : s.workers = Function.update (fun _ => .init) w b) {t : ℕ}
    (hdue : b.Due bounds t) (v : String) : (s.workers v).Due bounds t := by
  rw [hworkers]
  rcases eq_or_ne v w with rfl | hne
  · rwa [Function.update_self]
  · rw [Function.update_of_ne hne]
    exact Beat.due_init bounds t

theorem returns_of_alone (hworkers : s.workers = Function.update (fun _ => .init) w b)
    {began since last : ℕ} (hkey : b.key = some (since, last)) {scan : List String}
    (hall : s.now < last → hbKey w ∈ scan) (honly : ∀ key ∈ scan, key = hbKey w ∧ began < last) :
    s.Returns began scan := by
  refine ⟨fun v since' last' hv _ hpresent => ?_, fun key hmem => ?_⟩
  · rw [hworkers] at hv
    rcases eq_or_ne v w with rfl | hne
    · rw [Function.update_self, hkey] at hv
      cases hv
      exact hall hpresent
    · rw [Function.update_of_ne hne] at hv
      cases hv
  · obtain ⟨rfl, hbegan⟩ := honly key hmem
    refine ⟨w, since, last, rfl, ?_, hbegan⟩
    rw [hworkers, Function.update_self, hkey]

theorem Reached.beat (hs : Reached hash interval bounds (solo w now b)) (action : BeatAction)
    (hb : b.step now action = some b') : Reached hash interval bounds (solo w now b') := by
  apply hs.step (a := .worker w action) _ trivial
  simp [Detector.step, solo, hb]

theorem Reached.wait (hs : Reached hash interval bounds (solo w now b)) (later : ℕ)
    (hle : now ≤ later) (hdue : b.Due bounds later) :
    Reached hash interval bounds (solo w later b) := by
  obtain ⟨duration, rfl⟩ := Nat.exists_eq_add_of_le hle
  exact hs.step (a := .elapse duration) rfl ⟨due_of_alone rfl hdue, trivial⟩

theorem not_accurate_of_expired (hserving : b.Serving) {r last : ℕ}
    (hregistered : b.registered = some r) (hr : r ≤ now) (hkey : b.key = some (r, last))
    (hexpired : last ≤ now) : ¬(solo w now b).Accurate := by
  intro haccurate
  have hreturns : (solo w now b).Returns now [] :=
    returns_of_alone rfl hkey (fun hpresent => absurd hpresent (not_lt.mpr hexpired)) (by simp)
  have hmem := haccurate now [] le_rfl hreturns w r (by simpa [solo] using hserving)
    (by simpa [solo] using hregistered) hr
  simp [listWorkers, Sequences.sorted] at hmem

/-- A worker goes on beating without delay until a time before which no write need reach the
replica. -/
theorem Reached.idle {now wakeup : ℕ} {stream : List Write} {key : Option (ℕ × ℕ)}
    {registered : Option ℕ} (target : ℕ) (hle : now ≤ wakeup) (htarget : now ≤ target)
    (hlate : target ≤ now + bounds.replication)
    (hstream : ∀ executed, .set executed ∈ stream → target ≤ executed + bounds.replication)
    (hs : Reached hash interval bounds
      (solo w now ⟨.sleeping wakeup, none, stream, key, registered, none⟩)) :
    ∃ b : Beat, b.Serving ∧ b.key = key ∧ b.registered = registered ∧
      Reached hash interval bounds (solo w target b) := by
  rcases le_or_gt target wakeup with hsleep | hwake
  · refine ⟨_, ?_, rfl, rfl, hs.wait target htarget ⟨by simp, hstream, ?_⟩⟩
    · trivial
    · dsimp only
      omega
  · have hwait : ∀ executed, .set executed ∈ stream → wakeup ≤ executed + bounds.replication :=
      fun executed hmem => hwake.le.trans (hstream executed hmem)
    have h1 := hs.wait wakeup hle ⟨by simp, hwait, by simp⟩
    have h2 := h1.beat .wake (if_pos le_rfl)
    have h3 := h2.beat .executeSet rfl
    have h4 := h3.beat .reply rfl
    refine Reached.idle target (Nat.le_add_right _ _) hwake.le (by omega) ?_ h4
    intro executed hmem
    rcases List.mem_append.mp hmem with hmem | hmem
    · exact hstream executed hmem
    · cases List.mem_singleton.mp hmem
      omega
termination_by target - wakeup
decreasing_by
  have hpos : 0 < heartbeatInterval := by decide
  omega

theorem exists_expired_of_late
    (hs : Reached hash interval bounds (solo w now
      ⟨.sleeping (now + heartbeatInterval), none, [.set now], some (0, hbTtl), some 0, none⟩))
    (h : hbTtl ≤ now + bounds.replication) :
    ∃ s, Reached hash interval bounds s ∧ ¬s.Accurate := by
  have htarget : max now hbTtl ≤ now + bounds.replication := max_le (Nat.le_add_right _ _) h
  obtain ⟨b, hserving, hkey, hregistered, hb⟩ := Reached.idle (max now hbTtl)
    (Nat.le_add_right _ _) (le_max_left _ _) htarget (by simpa using htarget) hs
  exact ⟨_, hb, not_accurate_of_expired hserving hregistered (Nat.zero_le _) hkey
    (le_max_right _ _)⟩

/-- Without the bound at the start, the key expires before the first `SET` of the loop reaches
the replica. -/
theorem exists_expired_at_start (hash : String → ℕ) (interval : ℕ) (bounds : Bounds)
    (h : hbTtl ≤ 3 * bounds.delay + bounds.replication) :
    ∃ s, Reached hash interval bounds s ∧ ¬s.Accurate := by
  have h0 : Reached hash interval bounds (solo "w" 0 .init) := reached_start
  have h1 := h0.beat .register rfl
  have h2 := h1.beat .executeSet rfl
  have h3 := h2.beat .replicate rfl
  have h4 := h3.wait bounds.delay (Nat.zero_le _) ⟨by simp, by simp, by simp⟩
  have h5 := h4.beat .reply rfl
  have h6 := h5.wait (2 * bounds.delay) (by omega) ⟨by simp, by simp, by simp; omega⟩
  have h7 := h6.beat .reply rfl
  have h8 := h7.wait (3 * bounds.delay) (by omega) ⟨by simp; omega, by simp, by simp; omega⟩
  have h9 := h8.beat .executeSet rfl
  have h10 := h9.beat .reply rfl
  exact exists_expired_of_late h10 h

/-- Without the bound in the loop, the key expires before a later `SET` reaches the replica. -/
theorem exists_expired_in_loop (hash : String → ℕ) (interval : ℕ) (bounds : Bounds)
    (h : hbTtl ≤ 2 * bounds.delay + heartbeatInterval + bounds.lag + bounds.replication) :
    ∃ s, Reached hash interval bounds s ∧ ¬s.Accurate := by
  let wakeup := bounds.delay + heartbeatInterval
  have h0 : Reached hash interval bounds (solo "w" 0 .init) := reached_start
  have h1 := h0.beat .register rfl
  have h2 := h1.beat .executeSet rfl
  have h3 := h2.beat .replicate rfl
  have h4 := h3.beat .reply rfl
  have h5 := h4.beat .reply rfl
  have h6 := h5.beat .executeSet rfl
  have h7 := h6.beat .replicate rfl
  have h8 := h7.wait bounds.delay (Nat.zero_le _) ⟨by simp, by simp, by simp⟩
  have h9 := h8.beat .reply rfl
  have h10 := h9.wait (wakeup + bounds.lag) (by omega) ⟨by simp, by simp, by simp [wakeup]⟩
  have h11 := h10.beat .wake (if_pos (by omega))
  have h12 := h11.wait (wakeup + bounds.lag + bounds.delay) (by omega)
    ⟨by simp, by simp, by simp⟩
  have h13 := h12.beat .executeSet rfl
  have h14 := h13.beat .reply rfl
  refine exists_expired_of_late h14 ?_
  simp only [wakeup]
  omega

end Solo

/-- Heartbeats are accurate in every timely run, for all delays that the environment may cause
within its bounds, exactly if three commands and also two commands with the sleep and the
wakeup of the loop take less time than a key lives, with the replication added. -/
theorem accurate_iff (hash : String → ℕ) (interval : ℕ) (bounds : Bounds) :
    (∀ acts s, Runs.run (step hash interval) start acts = some s →
        Runs.EveryStep (step hash interval) start acts (Timely bounds) → s.Accurate) ↔
      3 * bounds.delay + bounds.replication < hbTtl ∧
        2 * bounds.delay + heartbeatInterval + bounds.lag + bounds.replication < hbTtl := by
  constructor
  · intro haccurate
    by_contra hbounds
    have hexpired : ∃ s, Reached hash interval bounds s ∧ ¬s.Accurate := by
      rcases not_and_or.mp hbounds with h | h
      · exact exists_expired_at_start hash interval bounds (not_lt.mp h)
      · exact exists_expired_in_loop hash interval bounds (not_lt.mp h)
    obtain ⟨s, ⟨acts, hrun, htimely⟩, hnot⟩ := hexpired
    exact hnot (haccurate acts s hrun htimely)
  · rintro ⟨hstart, hloop⟩ acts s hrun htimely
    have hbounds : bounds.Sustained := by
      unfold Bounds.Sustained Bounds.gap
      omega
    exact accurate_of_sustained hbounds hrun htimely

end Detector

end LegalLens.Coordination
