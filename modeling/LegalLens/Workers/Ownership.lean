import LegalLens.Workers.LiveSet

/-!
# Ownership of points with an arbitrary hash

When vnodes of different workers collide, an add overwrites points of other workers and a
removal pops points that others have taken over, so the dictionary is no longer a function
of the live set. It still never holds more than it should: an entry belongs to a worker
that is a member, and stands at a vnode of that worker. A removal pops every vnode of its
worker, so no entry of the worker survives.
-/

namespace LegalLens.Workers.ConsistentHashRing

open ClockwiseSearch

variable {hash : String → ℕ} {n : ℤ}

/-- Every entry is a vnode of a worker in `L`. -/
def Owned (hash : String → ℕ) (n : ℤ) (d : Dict ℕ String) (L : Finset String) : Prop :=
  ∀ p w, d.get? p = some w → w ∈ L ∧ ∃ i < n.toNat, hash (vnodeLabel w i) = p

theorem owned_empty (L : Finset String) : Owned hash n Dict.empty L := by
  intro p w h
  cases h

theorem Owned.assignVnodes {d : Dict ℕ String} {L : Finset String} (h : Owned hash n d L)
    (w : String) :
    Owned hash n (assignVnodes hash (List.range n.toNat) d w) (insert w L) := by
  intro p v hv
  rw [get?_assignVnodes] at hv
  split_ifs at hv with hp
  · cases hv
    obtain ⟨i, hi, hpi⟩ := hp
    exact ⟨Finset.mem_insert_self w L, i, List.mem_range.mp hi, hpi⟩
  · obtain ⟨hmem, hvnode⟩ := h p v hv
    exact ⟨Finset.mem_insert_of_mem hmem, hvnode⟩

/-- What is left after a removal stands at no vnode of the removed worker, hence belongs to
another one. -/
theorem Owned.popVnodes {d : Dict ℕ String} {L : Finset String} (h : Owned hash n d L)
    (w : String) :
    Owned hash n (popVnodes hash (List.range n.toNat) d w) (L.erase w) := by
  intro p v hv
  rw [get?_popVnodes] at hv
  split_ifs at hv with hp
  obtain ⟨hmem, i, hi, hpi⟩ := h p v hv
  have hne : v ≠ w := by
    rintro rfl
    exact hp ⟨i, List.mem_range.mpr hi, hpi⟩
  exact ⟨Finset.mem_erase.mpr ⟨hne, hmem⟩, i, hi, hpi⟩

theorem Owned.foldl_assignVnodes {d : Dict ℕ String} {L : Finset String} (h : Owned hash n d L)
    (ws : List String) :
    Owned hash n (ws.foldl (ConsistentHashRing.assignVnodes hash (List.range n.toNat)) d)
      (L ∪ ws.toFinset) := by
  induction ws generalizing d L with
  | nil => simpa using h
  | cons w ws ih =>
    have hstep := ih (h.assignVnodes w)
    rwa [List.toFinset_cons, Finset.union_insert, ← Finset.insert_union, List.foldl_cons]

theorem Owned.apply {r : ConsistentHashRing} {L : Finset String}
    (h : Owned hash r.virtualNodes r.ring L) (op : Op) :
    Owned hash r.virtualNodes (r.apply hash op).ring (liveStep L op) := by
  cases op with
  | add w => exact h.assignVnodes w
  | remove w => exact h.popVnodes w
  | replace ws =>
    have hrebuilt := (owned_empty ∅ : Owned hash r.virtualNodes Dict.empty ∅).foldl_assignVnodes ws
    rwa [Finset.empty_union] at hrebuilt

theorem owned_run (ops : List Op) : Owned hash n (run hash n ops).ring (live ops) := by
  induction ops using List.reverseRecOn with
  | nil => exact owned_empty _
  | append_singleton ops op ih =>
    rw [run_concat, live_concat]
    have hstep := Owned.apply (r := run hash n ops) (by rwa [virtualNodes_run]) op
    rwa [virtualNodes_run] at hstep

theorem indexed_run (ops : List Op) : (run hash n ops).Indexed :=
  indexed_applyAll hash (indexed_init n) ops

theorem points_eq_empty_iff {r : ConsistentHashRing} : r.points = ∅ ↔ r.ring.entries = [] := by
  constructor
  · intro h
    rw [List.eq_nil_iff_forall_not_mem]
    rintro ⟨p, w⟩ hmem
    have hp : p ∈ r.points := ⟨w, Dict.get?_eq_some_iff.mpr hmem⟩
    rw [h] at hp
    exact hp
  · intro h
    ext p
    simp [points, Dict.get?_eq_some_iff, h]

/-- For every hash and every history, a lookup never fails: on an empty dictionary it
answers nothing, and otherwise it answers the worker at the smallest point beyond the hash
of the key, or at the smallest point of all if there is none beyond. -/
theorem getWorker_clockwise (hash : String → ℕ) (n : ℤ) (ops : List Op) (key : String) :
    let r := run hash n ops
    (r.ring.entries = [] ∧ r.getWorker hash key = .ok none) ∨
      (r.ring.entries ≠ [] ∧ ∃ p w, IsSuccessor r.points (hash key) p ∧
        r.ring.get? p = some w ∧ r.getWorker hash key = .ok (some w)) := by
  intro r
  rcases (indexed_run ops).getWorker_cases hash key with ⟨hempty, hnone⟩ | ⟨p, w, hp, hw, hget⟩
  · exact Or.inl ⟨points_eq_empty_iff.mp hempty, hnone⟩
  · refine Or.inr ⟨?_, p, w, hp, hw, hget⟩
    intro hentries
    have hpoints : r.points = ∅ := points_eq_empty_iff.mpr hentries
    have hmem : p ∈ r.points := hp.1
    rw [hpoints] at hmem
    exact hmem

/-- For every hash and every history, a lookup answers nothing or a member. -/
theorem getWorker_member (hash : String → ℕ) (n : ℤ) (ops : List Op) (key : String) :
    (run hash n ops).getWorker hash key = .ok none ∨
      ∃ w ∈ live ops, (run hash n ops).getWorker hash key = .ok (some w) := by
  rcases (indexed_run ops).getWorker_cases hash key with ⟨-, hnone⟩ | ⟨p, w, -, hw, hget⟩
  · exact Or.inl hnone
  · exact Or.inr ⟨w, (owned_run ops p w hw).1, hget⟩

theorem getWorker_replaceWorkers (hash : String → ℕ) (r : ConsistentHashRing)
    (hn : 1 ≤ r.virtualNodes) {ws : List String} (hne : ws ≠ []) (key : String) :
    ∃ w ∈ ws, (r.replaceWorkers hash ws).getWorker hash key = .ok (some w) := by
  have hindexed : (r.replaceWorkers hash ws).Indexed := indexed_apply hash r (.replace ws)
  have howned := (owned_empty ∅ : Owned hash r.virtualNodes Dict.empty ∅).foldl_assignVnodes ws
  rcases hindexed.getWorker_cases hash key with ⟨hempty, -⟩ | ⟨p, w, -, hw, hget⟩
  · obtain ⟨before, v, rfl⟩ := (List.eq_nil_or_concat ws).resolve_left hne
    have hmem : hash (vnodeLabel v 0) ∈ (r.replaceWorkers hash (before.concat v)).points := by
      refine ⟨v, ?_⟩
      rw [replaceWorkers, List.concat_eq_append, List.foldl_concat, get?_assignVnodes, if_pos]
      exact ⟨0, List.mem_range.mpr (by omega), rfl⟩
    rw [hempty] at hmem
    exact hmem.elim
  · have hmem := (howned p w hw).1
    rw [Finset.empty_union, List.mem_toFinset] at hmem
    exact ⟨w, hmem, hget⟩

theorem mem_of_getWorker_replaceWorkers {r : ConsistentHashRing} {ws : List String}
    {key w : String} (h : (r.replaceWorkers hash ws).getWorker hash key = .ok (some w)) :
    w ∈ ws := by
  have hindexed : (r.replaceWorkers hash ws).Indexed := indexed_apply hash r (.replace ws)
  have howned := (owned_empty ∅ : Owned hash r.virtualNodes Dict.empty ∅).foldl_assignVnodes ws
  rcases hindexed.getWorker_cases hash key with ⟨-, hnone⟩ | ⟨p, v, -, hv, hget⟩
  · rw [hnone] at h
    cases h
  · rw [hget] at h
    cases h
    have hmem := (howned p w hv).1
    rwa [Finset.empty_union, List.mem_toFinset] at hmem

end LegalLens.Workers.ConsistentHashRing
