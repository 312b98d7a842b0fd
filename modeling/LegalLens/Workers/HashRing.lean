import LegalLens.Library.ClockwiseSearch
import LegalLens.Library.Dict
import LegalLens.Library.Sequences

/-!
# The consistent hash ring

The ring keeps a dictionary from vnode points to worker ids and a sorted copy of its
keys. The hash is a parameter: nothing below depends on MD5 itself. A lookup bisects
the sorted copy and then reads the dictionary, so it could raise if the two disagreed;
`Indexed` is the invariant that they never do after a completed operation.
-/

namespace LegalLens.Workers

open ClockwiseSearch Sequences

/-- What `get_worker` can raise when the sorted points and the dictionary disagree. -/
inductive LookupError where
  | indexError
  | keyError (point : ℕ)
  deriving DecidableEq, Repr

/-- The string that is hashed for the `i`-th virtual node of a worker. -/
def vnodeLabel (workerId : String) (i : ℕ) : String := workerId ++ "#" ++ toString i

theorem vnodeLabel_inj {v w : String} {i j : ℕ} (h : vnodeLabel v i = vnodeLabel w j) :
    v = w ∧ i = j :=
  append_decimal_inj (c := '#') (by decide) (by decide) h

structure ConsistentHashRing where
  virtualNodes : ℤ
  ring : Dict ℕ String
  sortedHashes : List ℕ

namespace ConsistentHashRing

/-- The default of the constructor argument `virtual_nodes`. -/
def defaultVirtualNodes : ℤ := 150

def init (virtualNodes : ℤ) : ConsistentHashRing := ⟨virtualNodes, Dict.empty, []⟩

/-- `range(self.virtual_nodes)`, empty when the count is not positive. -/
def vnodes (r : ConsistentHashRing) : List ℕ := List.range r.virtualNodes.toNat

variable (hash : String → ℕ)

/-- The inner loop shared by `add_worker` and `replace_workers`. -/
def assignVnodes (is : List ℕ) (d : Dict ℕ String) (workerId : String) : Dict ℕ String :=
  is.foldl (fun ring i => ring.set (hash (vnodeLabel workerId i)) workerId) d

def popVnodes (is : List ℕ) (d : Dict ℕ String) (workerId : String) : Dict ℕ String :=
  is.foldl (fun ring i => ring.pop (hash (vnodeLabel workerId i))) d

def addWorker (r : ConsistentHashRing) (workerId : String) : ConsistentHashRing :=
  let ring := assignVnodes hash r.vnodes r.ring workerId
  { r with ring := ring, sortedHashes := sorted ring.keys }

def removeWorker (r : ConsistentHashRing) (workerId : String) : ConsistentHashRing :=
  let ring := popVnodes hash r.vnodes r.ring workerId
  { r with ring := ring, sortedHashes := sorted ring.keys }

def replaceWorkers (r : ConsistentHashRing) (workerIds : List String) : ConsistentHashRing :=
  let ring := workerIds.foldl (assignVnodes hash r.vnodes) Dict.empty
  { r with ring := ring, sortedHashes := sorted ring.keys }

def getWorker (r : ConsistentHashRing) (key : String) : Except LookupError (Option String) :=
  if r.sortedHashes = [] then .ok none
  else
    let h := hash key
    let idx := bisectRight r.sortedHashes h
    let idx := if idx = r.sortedHashes.length then 0 else idx
    match r.sortedHashes[idx]? with
    | none => .error .indexError
    | some p =>
      match r.ring.get? p with
      | none => .error (.keyError p)
      | some w => .ok (some w)

def workers (r : ConsistentHashRing) : List String := sorted r.ring.values.dedup

/-- `__len__`: the number of distinct workers. -/
def len (r : ConsistentHashRing) : ℕ := r.ring.values.dedup.length

inductive Op where
  | add (workerId : String)
  | remove (workerId : String)
  | replace (workerIds : List String)
  deriving DecidableEq, Repr

def apply (r : ConsistentHashRing) : Op → ConsistentHashRing
  | .add w => r.addWorker hash w
  | .remove w => r.removeWorker hash w
  | .replace ws => r.replaceWorkers hash ws

def applyAll (r : ConsistentHashRing) (ops : List Op) : ConsistentHashRing :=
  ops.foldl (apply hash) r

def run (virtualNodes : ℤ) (ops : List Op) : ConsistentHashRing :=
  (init virtualNodes).applyAll hash ops

/-! ## The vnode loops -/

theorem get?_assignVnodes (is : List ℕ) (d : Dict ℕ String) (w : String) (p : ℕ) :
    (assignVnodes hash is d w).get? p =
      if ∃ i ∈ is, hash (vnodeLabel w i) = p then some w else d.get? p := by
  induction is generalizing d with
  | nil => simp [assignVnodes]
  | cons i is ih =>
    have hstep : assignVnodes hash (i :: is) d w =
        assignVnodes hash is (d.set (hash (vnodeLabel w i)) w) w := rfl
    rw [hstep, ih, Dict.get?_set]
    by_cases hi : hash (vnodeLabel w i) = p
    · simp [hi]
    · simp [hi, Ne.symm hi]

theorem get?_popVnodes (is : List ℕ) (d : Dict ℕ String) (w : String) (p : ℕ) :
    (popVnodes hash is d w).get? p =
      if ∃ i ∈ is, hash (vnodeLabel w i) = p then none else d.get? p := by
  induction is generalizing d with
  | nil => simp [popVnodes]
  | cons i is ih =>
    have hstep : popVnodes hash (i :: is) d w =
        popVnodes hash is (d.pop (hash (vnodeLabel w i))) w := rfl
    rw [hstep, ih, Dict.get?_pop]
    by_cases hi : hash (vnodeLabel w i) = p
    · simp [hi]
    · simp [hi, Ne.symm hi]

theorem assignVnodes_eq_self {is : List ℕ} {d : Dict ℕ String} {w : String}
    (h : ∀ i ∈ is, d.get? (hash (vnodeLabel w i)) = some w) : assignVnodes hash is d w = d := by
  induction is with
  | nil => rfl
  | cons i is ih =>
    have hstep : assignVnodes hash (i :: is) d w =
        assignVnodes hash is (d.set (hash (vnodeLabel w i)) w) w := rfl
    rw [hstep, Dict.set_eq_self (h i (by simp)), ih fun j hj => h j (by simp [hj])]

/-- Inserting a worker twice in a row is inserting it once, whatever collides. -/
theorem assignVnodes_idem (is : List ℕ) (d : Dict ℕ String) (w : String) :
    assignVnodes hash is (assignVnodes hash is d w) w = assignVnodes hash is d w := by
  apply assignVnodes_eq_self
  intro i hi
  rw [get?_assignVnodes, if_pos ⟨i, hi, rfl⟩]

/-! ## What an operation leaves alone -/

@[simp] theorem virtualNodes_apply (r : ConsistentHashRing) (op : Op) :
    (r.apply hash op).virtualNodes = r.virtualNodes := by
  cases op <;> rfl

@[simp] theorem virtualNodes_applyAll (r : ConsistentHashRing) (ops : List Op) :
    (r.applyAll hash ops).virtualNodes = r.virtualNodes := by
  induction ops generalizing r with
  | nil => rfl
  | cons op ops ih => exact (ih (r.apply hash op)).trans (virtualNodes_apply hash r op)

/-! ## The index invariant -/

/-- The sorted list holds exactly the dictionary's keys. -/
def Indexed (r : ConsistentHashRing) : Prop := r.sortedHashes = sorted r.ring.keys

theorem indexed_init (n : ℤ) : (init n).Indexed := rfl

theorem indexed_apply (r : ConsistentHashRing) (op : Op) : (r.apply hash op).Indexed := by
  cases op <;> rfl

theorem indexed_applyAll {r : ConsistentHashRing} (hr : r.Indexed) (ops : List Op) :
    (r.applyAll hash ops).Indexed := by
  induction ops generalizing r with
  | nil => exact hr
  | cons op ops ih => exact ih (indexed_apply hash r op)

def points (r : ConsistentHashRing) : Set ℕ := {p | ∃ w, r.ring.get? p = some w}

theorem Indexed.mem_sortedHashes {r : ConsistentHashRing} (hr : r.Indexed) {p : ℕ} :
    p ∈ r.sortedHashes ↔ p ∈ r.points := by
  rw [hr, mem_sorted]
  exact Dict.mem_keys_iff

theorem Indexed.sortedLT {r : ConsistentHashRing} (hr : r.Indexed) : r.sortedHashes.SortedLT := by
  rw [hr]
  exact sorted_sortedLT r.ring.nodup_keys

/-- A lookup returns the worker at the clockwise successor, or nothing on an empty ring;
in particular it never raises. -/
theorem Indexed.getWorker_cases {r : ConsistentHashRing} (hr : r.Indexed) (key : String) :
    (r.points = ∅ ∧ r.getWorker hash key = .ok none) ∨
      ∃ p w, IsSuccessor r.points (hash key) p ∧ r.ring.get? p = some w ∧
        r.getWorker hash key = .ok (some w) := by
  by_cases hne : r.sortedHashes = []
  · refine Or.inl ⟨?_, by simp [getWorker, hne]⟩
    ext p
    simp [← hr.mem_sortedHashes, hne]
  · have hs : r.sortedHashes.SortedLE := hr.sortedLT.sortedLE
    have hpoints : {p | p ∈ r.sortedHashes} = r.points := by
      ext p
      exact hr.mem_sortedHashes
    obtain ⟨hidx, hsucc⟩ := (bisectRight_spec hs (hash key)).isSuccessor hs hne
    rw [hpoints] at hsucc
    obtain ⟨w, hw⟩ := hsucc.1
    refine Or.inr ⟨_, w, hsucc, hw, ?_⟩
    simp only [getWorker, if_neg hne, List.getElem?_eq_getElem hidx, hw]

theorem Indexed.getWorker_eq_some_iff {r : ConsistentHashRing} (hr : r.Indexed) {key w : String} :
    r.getWorker hash key = .ok (some w) ↔
      ∃ p, IsSuccessor r.points (hash key) p ∧ r.ring.get? p = some w := by
  rcases hr.getWorker_cases hash key with ⟨hempty, hnone⟩ | ⟨p, v, hp, hv, hget⟩
  · simp [hnone, hempty, IsSuccessor]
  · rw [hget]
    constructor
    · intro h
      cases h
      exact ⟨p, hp, hv⟩
    · rintro ⟨q, hq, hw⟩
      rw [hp.unique hq, hw] at hv
      cases hv
      rfl

theorem Indexed.getWorker_congr {r s : ConsistentHashRing} (hr : r.Indexed) (hs : s.Indexed)
    (h : ∀ p, r.ring.get? p = s.ring.get? p) (key : String) :
    r.getWorker hash key = s.getWorker hash key := by
  have hpoints : r.points = s.points := by
    ext p
    simp [points, h]
  rcases hr.getWorker_cases hash key with ⟨hempty, hnone⟩ | ⟨p, w, hp, hw, hget⟩
  · rcases hs.getWorker_cases hash key with ⟨-, hnone'⟩ | ⟨q, v, hq, -, -⟩
    · rw [hnone, hnone']
    · exact absurd hq.1 (by simp [← hpoints, hempty])
  · rw [hget, eq_comm, hs.getWorker_eq_some_iff]
    exact ⟨p, hpoints ▸ hp, (h p).symm.trans hw⟩

theorem Indexed.sortedHashes_congr {r s : ConsistentHashRing} (hr : r.Indexed) (hs : s.Indexed)
    (h : ∀ p, r.ring.get? p = s.ring.get? p) : r.sortedHashes = s.sortedHashes := by
  rw [hr, hs]
  exact sorted_eq_of_mem_iff r.ring.nodup_keys s.ring.nodup_keys
    fun p => (Dict.keys_perm_of_get?_eq h).mem_iff

end ConsistentHashRing

end LegalLens.Workers
