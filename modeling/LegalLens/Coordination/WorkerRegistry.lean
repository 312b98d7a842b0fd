import LegalLens.Workers.LiveSet

/-!
# The worker registry

A registry holds one ring and rebuilds it from the heartbeat keys that a scan returns.
The scan result is an argument: Redis fixes neither the order of a scan nor the number
of times it reports a key.
-/

namespace LegalLens.Coordination

open Workers Sequences

def hbKeyPrefix : String := "worker:hb:"

/-- The heartbeat key `worker:hb:<id>` of a worker. -/
def hbKey (workerId : String) : String := hbKeyPrefix ++ workerId

/-- `key[len(HB_KEY_PREFIX):]`. -/
def workerOfKey (key : String) : String := String.ofList (key.toList.drop hbKeyPrefix.length)

@[simp] theorem workerOfKey_hbKey (w : String) : workerOfKey (hbKey w) = w := by
  simp [workerOfKey, hbKey, ← String.length_toList]

structure WorkerRegistry where
  ring : ConsistentHashRing

namespace WorkerRegistry

def init : WorkerRegistry := ⟨.init ConsistentHashRing.defaultVirtualNodes⟩

/-- The sorted worker ids of the scanned heartbeat keys, repetitions included. -/
def listWorkers (scan : List String) : List String := sorted (scan.map workerOfKey)

/-- Rebuild the ring from a scan and return the worker list to the caller. -/
def refreshRing (hash : String → ℕ) (registry : WorkerRegistry) (scan : List String) :
    WorkerRegistry × List String :=
  let workers := listWorkers scan
  (⟨registry.ring.replaceWorkers hash workers⟩, workers)

/-- A registry whose public ring has gone through arbitrary earlier calls. -/
def afterOps (hash : String → ℕ) (ops : List ConsistentHashRing.Op) : WorkerRegistry :=
  ⟨init.ring.applyAll hash ops⟩

/-- A scan that returns exactly the heartbeat keys of `live`, in some order and with
some repetitions. -/
def Scans (live : Finset String) (scan : List String) : Prop :=
  ∀ key, key ∈ scan ↔ ∃ w ∈ live, key = hbKey w

theorem mem_workers_of_scans {live : Finset String} {scan : List String} (h : Scans live scan)
    (w : String) : w ∈ scan.map workerOfKey ↔ w ∈ live := by
  rw [List.mem_map]
  constructor
  · rintro ⟨key, hkey, rfl⟩
    obtain ⟨v, hv, rfl⟩ := (h key).mp hkey
    rwa [workerOfKey_hbKey]
  · intro hw
    exact ⟨hbKey w, (h _).mpr ⟨w, hw, rfl⟩, workerOfKey_hbKey w⟩

theorem hbKey_mem_iff {scan : List String} (h : ∀ key ∈ scan, key = hbKey (workerOfKey key))
    (w : String) : hbKey w ∈ scan ↔ w ∈ listWorkers scan := by
  rw [listWorkers, mem_sorted, List.mem_map]
  constructor
  · intro hmem
    exact ⟨hbKey w, hmem, workerOfKey_hbKey w⟩
  · rintro ⟨key, hkey, rfl⟩
    rwa [← h key hkey]

theorem indexed_refreshRing (hash : String → ℕ) (registry : WorkerRegistry)
    (scan : List String) : (registry.refreshRing hash scan).1.ring.Indexed :=
  ConsistentHashRing.indexed_apply hash registry.ring (.replace (listWorkers scan))

/-- For any hash, the refreshed ring is a function of the scanned set: sorting puts the
repetitions of a worker side by side, where inserting it again has no effect, and fixes
the order in which colliding workers overwrite each other. -/
theorem refreshRing_eq_of_scans (hash : String → ℕ) {live : Finset String}
    {r s : WorkerRegistry} (hn : r.ring.virtualNodes = s.ring.virtualNodes)
    {scan scan' : List String} (h : Scans live scan) (h' : Scans live scan') :
    (r.refreshRing hash scan).1 = (s.refreshRing hash scan').1 := by
  have hmem : ∀ w, w ∈ scan.map workerOfKey ↔ w ∈ scan'.map workerOfKey := by
    intro w
    rw [mem_workers_of_scans h, mem_workers_of_scans h']
  have hfold := foldl_sorted_eq_of_mem_iff
    (ConsistentHashRing.assignVnodes hash r.ring.vnodes)
    (ConsistentHashRing.assignVnodes_idem hash r.ring.vnodes) hmem Dict.empty
  have hv : s.ring.vnodes = r.ring.vnodes := by
    simp only [ConsistentHashRing.vnodes, hn]
  simp only [refreshRing, listWorkers, ConsistentHashRing.replaceWorkers, hv, hfold, hn]

theorem mem_workers_refreshRing {hash : String → ℕ} {registry : WorkerRegistry}
    {scan : List String} (hn : 1 ≤ registry.ring.virtualNodes)
    (hinj : ConsistentHashRing.InjectiveOnLabels hash registry.ring.virtualNodes
      (scan.map workerOfKey)) (w : String) :
    w ∈ (registry.refreshRing hash scan).1.ring.workers ↔ w ∈ listWorkers scan := by
  have hscan : ∀ v ∈ listWorkers scan, v ∈ scan.map workerOfKey := fun v hv => mem_sorted.mp hv
  have hmaps := ConsistentHashRing.maps_empty.foldl_assignVnodes hinj (by simp) hscan
  have hrep : ConsistentHashRing.Represents hash (registry.refreshRing hash scan).1.ring
      (∅ ∪ (listWorkers scan).toFinset) := ⟨indexed_refreshRing hash registry scan, hmaps⟩
  rw [hrep.workers_eq hn, Finset.mem_sort, Finset.empty_union, List.mem_toFinset]

theorem mem_workers_refreshRing_of_subset {hash : String → ℕ} {registry : WorkerRegistry}
    {scan ids : List String}
    (hvirtual : registry.ring.virtualNodes = ConsistentHashRing.defaultVirtualNodes)
    (hinj : ConsistentHashRing.InjectiveOnLabels hash ConsistentHashRing.defaultVirtualNodes ids)
    (hscan : scan.map workerOfKey ⊆ ids) (w : String) :
    w ∈ (registry.refreshRing hash scan).1.ring.workers ↔ w ∈ listWorkers scan := by
  apply mem_workers_refreshRing
  · rw [hvirtual]
    decide
  · rw [hvirtual]
    exact hinj.mono hscan

end WorkerRegistry

end LegalLens.Coordination
