import LegalLens.Coordination.WorkerRegistry
import LegalLens.Library.Runs
import LegalLens.Workers.Ownership

/-!
# Heartbeats in real time

A worker registers and then refreshes its heartbeat key in a loop, and the key expires when
it is not refreshed for `HB_TTL_SECONDS`. The writes go to the master, which passes them on to
the replica. A dispatcher process scans the keys of the replica at an interval and rebuilds
its ring, and it may do so for events as well. Time passes in actions of its own, and what
bounds it (the duration of a command, of the replication, of a scan, of a wakeup) is a
condition on runs. Times are in milliseconds.
-/

namespace LegalLens.Coordination

open Workers WorkerRegistry

def hbTtlSeconds : ℕ := 10

def heartbeatIntervalSeconds : ℕ := 3

def hbTtl : ℕ := 1000 * hbTtlSeconds

def heartbeatInterval : ℕ := 1000 * heartbeatIntervalSeconds

/-- Where a worker is in `register` and `heartbeat_loop`; commands are named with the time
they were issued at. -/
inductive BeatPhase where
  | unborn
  /-- `SET` of `register`. -/
  | registering (since : ℕ)
  /-- `PUBLISH` of `register`. -/
  | announcing (since : ℕ)
  /-- `SET` of `heartbeat_loop`. -/
  | beating (since : ℕ)
  | sleeping (wakeup : ℕ)
  /-- `DELETE` of `deregister`. -/
  | leaving
  | gone
  deriving DecidableEq, Repr

/-- A write that the master has executed. The expiry of a key is passed on as an absolute
time. -/
inductive Write where
  | set (executed : ℕ)
  | delete
  deriving DecidableEq, Repr

/-- A worker with its key: the issue time of a `SET` that the master has not executed, the writes
that the replica has not executed, and the last interval `[since, end)` during which the
replica has the key, whether past or not. The times at which the key first appeared there and
at which the worker left are histories. -/
structure Beat where
  phase : BeatPhase
  pending : Option ℕ
  stream : List Write
  key : Option (ℕ × ℕ)
  registered : Option ℕ
  departed : Option ℕ
  deriving DecidableEq, Repr

inductive BeatAction where
  | register
  /-- The master executes the `SET` in flight. -/
  | executeSet
  /-- The replica executes the next write. -/
  | replicate
  /-- A reply to the command that the worker waits for. -/
  | reply
  | wake
  /-- `hb_task.cancel()`. -/
  | cancel
  | executeDelete
  | crash
  deriving DecidableEq, Repr

/-- What the environment guarantees: a Redis command takes at most `delay`, a write reaches the
replica at most `replication` after its execution, a scan takes at most `duration`, and a
sleeping coroutine runs again at most `lag` after its wakeup time. -/
structure Bounds where
  delay : ℕ
  replication : ℕ
  duration : ℕ
  lag : ℕ

namespace Beat

def init : Beat := ⟨.unborn, none, [], none, none, none⟩

def dropKey (now : ℕ) (key : Option (ℕ × ℕ)) : Option (ℕ × ℕ) :=
  key.map fun interval => (interval.1, min interval.2 now)

/-- The key exists until `expiry`, and a key that exists goes on to exist. -/
def setKey (now expiry : ℕ) (key : Option (ℕ × ℕ)) : Option (ℕ × ℕ) :=
  if expiry ≤ now then dropKey now key
  else
    match key with
    | some (since, last) => some (if now < last then since else now, expiry)
    | none => some (now, expiry)

def replay (now : ℕ) (key : Option (ℕ × ℕ)) : Write → Option (ℕ × ℕ)
  | .set executed => setKey now (executed + hbTtl) key
  | .delete => dropKey now key

def step (now : ℕ) (b : Beat) : BeatAction → Option Beat
  | .register =>
    match b.phase with
    | .unborn => some { b with phase := .registering now, pending := some now }
    | _ => none
  | .executeSet =>
    match b.pending with
    | none => none
    | some _ => some { b with pending := none, stream := b.stream ++ [.set now] }
  | .replicate =>
    match b.stream with
    | [] => none
    | write :: stream => some { b with
        stream := stream, key := replay now b.key write
        registered := b.registered <|> (replay now b.key write).map Prod.fst }
  | .reply =>
    match b.pending, b.phase with
    | none, .registering _ => some { b with phase := .announcing now }
    | none, .announcing _ => some { b with phase := .beating now, pending := some now }
    | none, .beating _ => some { b with phase := .sleeping (now + heartbeatInterval) }
    | _, _ => none
  | .wake =>
    match b.phase with
    | .sleeping u =>
      if u ≤ now then some { b with phase := .beating now, pending := some now } else none
    | _ => none
  | .cancel =>
    match b.phase with
    | .beating _ => some { b with phase := .leaving, departed := some now }
    | .sleeping _ => some { b with phase := .leaving, departed := some now }
    | _ => none
  | .executeDelete =>
    match b.phase with
    | .leaving => some { b with phase := .gone, stream := b.stream ++ [.delete] }
    | _ => none
  | .crash =>
    match b.phase with
    | .unborn | .gone => none
    | _ => some { b with phase := .gone, departed := b.departed <|> some now }

def Serving (b : Beat) : Prop :=
  match b.phase with
  | .announcing _ | .beating _ | .sleeping _ => True
  | _ => False

/-- By the time `t`, no bound on the worker and its key has been exceeded. -/
structure Due (bounds : Bounds) (b : Beat) (t : ℕ) : Prop where
  pending : ∀ issued, b.pending = some issued → t ≤ issued + bounds.delay
  stream : ∀ executed, .set executed ∈ b.stream → t ≤ executed + bounds.replication
  phase : match b.phase with
    | .registering since | .announcing since | .beating since => t ≤ since + bounds.delay
    | .sleeping wakeup => t ≤ wakeup + bounds.lag
    | _ => True

/-- The same as `step`, one case for each way to go on. -/
inductive Step (now : ℕ) (b : Beat) : BeatAction → Beat → Prop
  | register (hphase : b.phase = .unborn) :
      Step now b .register { b with phase := .registering now, pending := some now }
  | executeSet {issued : ℕ} (hpending : b.pending = some issued) :
      Step now b .executeSet { b with pending := none, stream := b.stream ++ [.set now] }
  | replicate {write : Write} {stream : List Write} (hstream : b.stream = write :: stream) :
      Step now b .replicate { b with
        stream := stream, key := replay now b.key write
        registered := b.registered <|> (replay now b.key write).map Prod.fst }
  | registered {since : ℕ} (hpending : b.pending = none) (hphase : b.phase = .registering since) :
      Step now b .reply { b with phase := .announcing now }
  | announced {since : ℕ} (hpending : b.pending = none) (hphase : b.phase = .announcing since) :
      Step now b .reply { b with phase := .beating now, pending := some now }
  | beaten {since : ℕ} (hpending : b.pending = none) (hphase : b.phase = .beating since) :
      Step now b .reply { b with phase := .sleeping (now + heartbeatInterval) }
  | wake {u : ℕ} (hphase : b.phase = .sleeping u) (hu : u ≤ now) :
      Step now b .wake { b with phase := .beating now, pending := some now }
  | cancel (hserving : b.Serving) :
      Step now b .cancel { b with phase := .leaving, departed := some now }
  | executeDelete (hphase : b.phase = .leaving) :
      Step now b .executeDelete { b with phase := .gone, stream := b.stream ++ [.delete] }
  | crash (hphase : b.phase ≠ .unborn) :
      Step now b .crash { b with phase := .gone, departed := b.departed <|> some now }

theorem step_of_eq_some {now : ℕ} {b b' : Beat} {a : BeatAction}
    (h : b.step now a = some b') : Step now b a b' := by
  cases a with
  | register =>
    simp only [step] at h
    split at h <;> cases h
    next hphase => exact .register hphase
  | executeSet =>
    simp only [step] at h
    split at h <;> cases h
    next issued hpending => exact .executeSet hpending
  | replicate =>
    simp only [step] at h
    split at h <;> cases h
    next write stream hstream => exact .replicate hstream
  | reply =>
    simp only [step] at h
    split at h <;> cases h
    next since hpending hphase => exact .registered hpending hphase
    next since hpending hphase => exact .announced hpending hphase
    next since hpending hphase => exact .beaten hpending hphase
  | wake =>
    simp only [step] at h
    split at h
    next u hphase =>
      split_ifs at h with hu
      cases h
      exact .wake hphase hu
    · cases h
  | cancel =>
    simp only [step] at h
    split at h <;> cases h
    next since hphase => exact .cancel (by simp [Serving, hphase])
    next u hphase => exact .cancel (by simp [Serving, hphase])
  | executeDelete =>
    simp only [step] at h
    split at h <;> cases h
    next hphase => exact .executeDelete hphase
  | crash =>
    simp only [step] at h
    split at h <;> cases h
    next hunborn hgone => exact .crash hunborn

end Beat

inductive MonitorPhase where
  | off
  | scanning (since : ℕ)
  | sleeping (wakeup : ℕ)
  deriving DecidableEq, Repr

/-- The workers and a dispatcher process: its registry, its monitor, and the history of the
scan that the ring was built from, with the time at which it began. -/
structure Detector where
  now : ℕ
  workers : String → Beat
  monitor : MonitorPhase
  registry : WorkerRegistry
  scanned : Option (ℕ × List String)

inductive DetectorAction where
  | elapse (duration : ℕ)
  | worker (w : String) (action : BeatAction)
  /-- The dispatcher process starts with a scan of its monitor. -/
  | startMonitor
  | monitorRefresh (scan : List String)
  | monitorWake
  /-- `watch_events` refreshes the ring, on a scan that began at a time. -/
  | eventRefresh (began : ℕ) (scan : List String)

namespace Detector

def start : Detector := ⟨0, fun _ => .init, .off, .init, none⟩

variable (hash : String → ℕ) (interval : ℕ)

def refresh (s : Detector) (began : ℕ) (scan : List String) : Detector :=
  let (registry, workers) := s.registry.refreshRing hash scan
  { s with registry := registry, scanned := some (began, workers) }

/-- The monitor sleeps for the interval after each of its refreshes. -/
def step (s : Detector) : DetectorAction → Option Detector
  | .elapse duration => some { s with now := s.now + duration }
  | .worker w action => ((s.workers w).step s.now action).map fun b =>
      { s with workers := Function.update s.workers w b }
  | .startMonitor =>
    match s.monitor with
    | .off => some { s with monitor := .scanning s.now }
    | _ => none
  | .monitorRefresh scan =>
    match s.monitor with
    | .scanning since =>
      some { s.refresh hash since scan with monitor := .sleeping (s.now + interval) }
    | _ => none
  | .monitorWake =>
    match s.monitor with
    | .sleeping wakeup =>
      if wakeup ≤ s.now then some { s with monitor := .scanning s.now } else none
    | _ => none
  | .eventRefresh began scan =>
    if s.monitor ≠ .off ∧ began ≤ s.now then some (s.refresh hash began scan) else none

/-- What a scan of the replica that began at a time may return now: the keys present ever since,
and none of those absent ever since. -/
structure Returns (s : Detector) (began : ℕ) (scan : List String) : Prop where
  all : ∀ w since last, (s.workers w).key = some (since, last) → since ≤ began → s.now < last →
    hbKey w ∈ scan
  only : ∀ key ∈ scan, ∃ w since last,
    key = hbKey w ∧ (s.workers w).key = some (since, last) ∧ began < last

def MonitorDue (bounds : Bounds) (s : Detector) (t : ℕ) : Prop :=
  match s.monitor with
  | .off => True
  | .scanning since => t ≤ since + bounds.duration
  | .sleeping wakeup => t ≤ wakeup + bounds.lag

def Timely (bounds : Bounds) (s : Detector) : DetectorAction → Prop
  | .elapse duration =>
    (∀ w, (s.workers w).Due bounds (s.now + duration)) ∧
      s.MonitorDue bounds (s.now + duration)
  | .monitorRefresh scan => ∀ since, s.monitor = .scanning since → s.Returns since scan
  | .eventRefresh began scan => s.now ≤ began + bounds.duration ∧ s.Returns began scan
  | _ => True

variable {hash interval}

/-- The same as `step`, one case for each kind. -/
inductive Step (hash : String → ℕ) (interval : ℕ) (s : Detector) :
    DetectorAction → Detector → Prop
  | elapse (duration : ℕ) : Step hash interval s (.elapse duration)
      { s with now := s.now + duration }
  | worker {w : String} {action : BeatAction} {b : Beat}
      (hb : (s.workers w).step s.now action = some b) : Step hash interval s (.worker w action)
      { s with workers := Function.update s.workers w b }
  | startMonitor (hmonitor : s.monitor = .off) : Step hash interval s .startMonitor
      { s with monitor := .scanning s.now }
  | monitorRefresh {since : ℕ} {scan : List String} (hmonitor : s.monitor = .scanning since) :
      Step hash interval s (.monitorRefresh scan)
        { s.refresh hash since scan with monitor := .sleeping (s.now + interval) }
  | monitorWake {wakeup : ℕ} (hmonitor : s.monitor = .sleeping wakeup) (hle : wakeup ≤ s.now) :
      Step hash interval s .monitorWake { s with monitor := .scanning s.now }
  | eventRefresh {began : ℕ} {scan : List String} (hmonitor : s.monitor ≠ .off)
      (hle : began ≤ s.now) : Step hash interval s (.eventRefresh began scan)
      (s.refresh hash began scan)

theorem step_of_eq_some {s u : Detector} {a : DetectorAction}
    (h : s.step hash interval a = some u) : Step hash interval s a u := by
  cases a with
  | elapse duration =>
    cases h
    exact .elapse duration
  | worker w action =>
    obtain ⟨b, hb, rfl⟩ := Option.map_eq_some_iff.mp h
    exact .worker hb
  | startMonitor =>
    simp only [step] at h
    split at h <;> cases h
    next hmonitor => exact .startMonitor hmonitor
  | monitorRefresh scan =>
    simp only [step] at h
    split at h <;> cases h
    next since hmonitor => exact .monitorRefresh hmonitor
  | monitorWake =>
    simp only [step] at h
    split at h
    next wakeup hmonitor =>
      split_ifs at h with hle
      cases h
      exact .monitorWake hmonitor hle
    · cases h
  | eventRefresh began scan =>
    simp only [step] at h
    split_ifs at h with hok
    cases h
    exact .eventRefresh hok.1 hok.2

end Detector

end LegalLens.Coordination
