import LegalLens.Workers.LiveSet

/-!
# Routing as a function of the live set

Two consequences of the refinement. The concrete state after any history is a function
of the live set, so replicas that agree on membership route alike. Between two rings a
key moves only if its old owner has left or its new owner has just arrived.
-/

namespace LegalLens.Workers.ConsistentHashRing

variable {hash : String → ℕ} {n : ℤ}

/-- Equality of everything a caller can observe: the point map and the sorted points. -/
structure SameRing (r s : ConsistentHashRing) : Prop where
  virtualNodes : r.virtualNodes = s.virtualNodes
  lookup : ∀ p, r.ring.get? p = s.ring.get? p
  sortedHashes : r.sortedHashes = s.sortedHashes

theorem Represents.sameRing {r s : ConsistentHashRing} {L : Finset String}
    (hr : Represents hash r L) (hs : Represents hash s L)
    (hn : r.virtualNodes = s.virtualNodes) : SameRing r s :=
  ⟨hn, hr.get?_congr hs hn, hr.indexed.sortedHashes_congr hs.indexed (hr.get?_congr hs hn)⟩

theorem sameRing_of_live_eq {ops ops' : List Op}
    (hinj : InjectiveOnLabels hash n (mentioned ops))
    (hinj' : InjectiveOnLabels hash n (mentioned ops')) (hlive : live ops' = live ops) :
    SameRing (run hash n ops') (run hash n ops) ∧
      ∀ key, (run hash n ops').getWorker hash key = (run hash n ops).getWorker hash key := by
  have hr := represents_run ops hinj
  have hs := represents_run ops' hinj'
  rw [hlive] at hs
  have hsame := hs.sameRing hr (by simp)
  exact ⟨hsame, hs.indexed.getWorker_congr hash hr.indexed hsame.lookup⟩

theorem live_add_remove {ops : List Op} {w : String} (hw : w ∉ live ops) :
    live (ops ++ [.add w, .remove w]) = live ops := by
  have hsplit : ops ++ [.add w, .remove w] = (ops ++ [.add w]) ++ [.remove w] := by simp
  rw [hsplit, live_concat, live_concat]
  exact Finset.erase_insert hw

/-- The ring is a function of its live set `L`: the dictionary sends exactly the points of
the live workers to them, the sorted list enumerates its keys, and the reported workers
are `L` in order. Two histories with one live set agree, and adding an absent worker and
removing it again restores the ring. -/
theorem run_determined_by_live (hash : String → ℕ) (n : ℤ) (hn : 1 ≤ n) (ops : List Op)
    (hinj : InjectiveOnLabels hash n (mentioned ops)) :
    (∀ p w, (run hash n ops).ring.get? p = some w ↔
        w ∈ live ops ∧ ∃ i < n.toNat, hash (vnodeLabel w i) = p) ∧
      (run hash n ops).sortedHashes.SortedLT ∧
      (∀ p, p ∈ (run hash n ops).sortedHashes ↔ p ∈ (run hash n ops).ring.keys) ∧
      (run hash n ops).workers = (live ops).sort (· ≤ ·) ∧
      (run hash n ops).len = (live ops).card ∧
      (∀ ops', InjectiveOnLabels hash n (mentioned ops') → live ops' = live ops →
        SameRing (run hash n ops') (run hash n ops) ∧
          ∀ key, (run hash n ops').getWorker hash key = (run hash n ops).getWorker hash key) ∧
      ∀ w ∉ live ops, InjectiveOnLabels hash n (w :: mentioned ops) →
        SameRing (run hash n (ops ++ [.add w, .remove w])) (run hash n ops) := by
  have hr := represents_run ops hinj
  have hn' : 1 ≤ (run hash n ops).virtualNodes := by simpa using hn
  refine ⟨?_, hr.indexed.sortedLT, ?_, hr.workers_eq hn', hr.len_eq hn', ?_, ?_⟩
  · intro p w
    simpa using hr.maps p w
  · intro p
    rw [hr.indexed.mem_sortedHashes]
    exact Dict.mem_keys_iff.symm
  · intro ops' hinj' hlive
    exact sameRing_of_live_eq hinj hinj' hlive
  · intro w hw hinjw
    apply (sameRing_of_live_eq hinj _ (live_add_remove hw)).1
    apply hinjw.mono
    intro v hv
    simpa [mentioned, Op.ids, or_comm] using hv

/-- The base-256 value of a label, a collision-free hash for the small runs below. -/
def labelValue (s : String) : ℕ := s.toList.foldl (fun acc c => 256 * acc + c.toNat) 0

/-- A history with a repeated add, an absent removal and an id that contains the separator. -/
theorem run_determined_by_live_separator :
    (run labelValue 2 [.add "a", .add "a#1", .add "a", .remove "b"]).workers =
        ({"a", "a#1"} : Finset String).sort (· ≤ ·) ∧
      (run labelValue 2 [.add "a", .add "a#1", .add "a", .remove "b"]).len = 2 := by
  obtain ⟨-, -, -, hworkers, hlen, -, -⟩ := run_determined_by_live labelValue 2 (by decide)
    [.add "a", .add "a#1", .add "a", .remove "b"] (by decide)
  have hlive : live [.add "a", .add "a#1", .add "a", .remove "b"] = {"a", "a#1"} := by decide
  rw [hlive] at hworkers hlen
  exact ⟨hworkers, hlen⟩

theorem owner_eq_of_live {ops ops' : List Op}
    (hinj : InjectiveOnLabels hash n (mentioned ops ++ mentioned ops')) {key o o' : String}
    (ho : (run hash n ops).getWorker hash key = .ok (some o))
    (ho' : (run hash n ops').getWorker hash key = .ok (some o'))
    (hold : o ∈ live ops') (hnew : o' ∈ live ops) : o = o' := by
  have hr := represents_run ops (hinj.mono (List.subset_append_left _ _))
  have hs := represents_run ops' (hinj.mono (List.subset_append_right _ _))
  apply hr.owner_eq hs (by simp) (by simpa using hinj) _ _ ho ho' hold hnew
  · intro v hv
    exact List.mem_append_left _ (live_subset_mentioned ops v hv)
  · intro v hv
    exact List.mem_append_right _ (live_subset_mentioned ops' v hv)

theorem getWorker_run_cases (hn : 1 ≤ n) {ops : List Op}
    (hinj : InjectiveOnLabels hash n (mentioned ops)) (key : String) :
    (live ops = ∅ ∧ (run hash n ops).getWorker hash key = .ok none) ∨
      ∃ w ∈ live ops, (run hash n ops).getWorker hash key = .ok (some w) := by
  rcases (represents_run ops hinj).getWorker_cases (by simpa using hn) key with
    h | ⟨p, w, -, -, hw, hget⟩
  · exact Or.inl h
  · exact Or.inr ⟨w, hw, hget⟩

/-- A key whose answer changes when live workers are only gained moves to a new worker. -/
theorem moved_to_new (hn : 1 ≤ n) {ops ops' : List Op}
    (hinj : InjectiveOnLabels hash n (mentioned ops ++ mentioned ops'))
    (hsub : live ops ⊆ live ops') {key : String}
    (hne : (run hash n ops').getWorker hash key ≠ (run hash n ops).getWorker hash key) :
    ∃ w ∈ live ops', w ∉ live ops ∧ (run hash n ops').getWorker hash key = .ok (some w) := by
  rcases getWorker_run_cases hn (hinj.mono (List.subset_append_right _ _)) key with
    ⟨hempty, hnone⟩ | ⟨w, hw, hget⟩
  · have hempty' : live ops = ∅ := Finset.subset_empty.mp (hempty ▸ hsub)
    rcases getWorker_run_cases hn (hinj.mono (List.subset_append_left _ _)) key with
      ⟨-, hnone'⟩ | ⟨v, hv, -⟩
    · exact absurd (hnone.trans hnone'.symm) hne
    · simp [hempty'] at hv
  · refine ⟨w, hw, fun hold => ?_, hget⟩
    rcases getWorker_run_cases hn (hinj.mono (List.subset_append_left _ _)) key with
      ⟨hempty, -⟩ | ⟨v, hv, hget'⟩
    · simp [hempty] at hold
    · exact hne (by rw [hget, hget', owner_eq_of_live hinj hget' hget (hsub hv) hold])

/-- Minimal disruption between any two rings over one hash, and its three special cases:
an add moves keys only onto the added worker, a removal moves only the removed worker's
keys, and a rebuild moves no key between two workers that both stay. -/
theorem two_ring_minimal_disruption (hash : String → ℕ) (n : ℤ) (hn : 1 ≤ n)
    (ops ops' : List Op) (hinj : InjectiveOnLabels hash n (mentioned ops ++ mentioned ops')) :
    (∀ key o o', (run hash n ops).getWorker hash key = .ok (some o) →
        (run hash n ops').getWorker hash key = .ok (some o') →
        o ∈ live ops' → o' ∈ live ops → o = o') ∧
      (∀ w, ops' = ops ++ [.add w] → ∀ key,
        (run hash n ops').getWorker hash key ≠ (run hash n ops).getWorker hash key →
        (run hash n ops').getWorker hash key = .ok (some w)) ∧
      (∀ w, ops' = ops ++ [.remove w] → ∀ key,
        (run hash n ops').getWorker hash key ≠ (run hash n ops).getWorker hash key →
        (run hash n ops).getWorker hash key = .ok (some w)) ∧
      ∀ ws, ops' = ops ++ [.replace ws] → ∀ key o o',
        (run hash n ops).getWorker hash key = .ok (some o) →
        (run hash n ops').getWorker hash key = .ok (some o') →
        o ≠ o' → ¬ ((o ∈ live ops ∧ o ∈ ws) ∧ (o' ∈ live ops ∧ o' ∈ ws)) := by
  refine ⟨fun key o o' ho ho' => owner_eq_of_live hinj ho ho', ?_, ?_, ?_⟩
  · rintro w rfl key hne
    have hlive : live (ops ++ [.add w]) = insert w (live ops) := live_concat ops (.add w)
    obtain ⟨v, hv, hnew, hget⟩ :=
      moved_to_new hn hinj (hlive ▸ Finset.subset_insert w (live ops)) hne
    rw [hlive] at hv
    rwa [(Finset.mem_insert.mp hv).resolve_right hnew] at hget
  · rintro w rfl key hne
    have hlive : live (ops ++ [.remove w]) = (live ops).erase w := live_concat ops (.remove w)
    -- seen backwards, a removal is an addition
    have hinj' := hinj.mono (List.append_subset.mpr
      ⟨List.subset_append_right (mentioned ops) _, List.subset_append_left _ _⟩)
    obtain ⟨v, hv, hnew, hget⟩ :=
      moved_to_new hn hinj' (hlive ▸ Finset.erase_subset w (live ops)) hne.symm
    have hvw : v = w := by
      by_contra hvw
      exact hnew (hlive ▸ Finset.mem_erase.mpr ⟨hvw, hv⟩)
    rwa [hvw] at hget
  · rintro ws rfl key o o' ho ho' hne ⟨⟨-, hows⟩, ho'live, -⟩
    have hlive : live (ops ++ [.replace ws]) = ws.toFinset := live_concat ops (.replace ws)
    exact hne (owner_eq_of_live hinj ho ho' (by simpa [hlive] using hows) ho'live)

/-- A key that moves when a third worker joins moves onto that worker. -/
theorem two_ring_minimal_disruption_join :
    (run labelValue 2 [.replace ["a", "b"], .add "c"]).getWorker labelValue "b#5" =
      .ok (some "c") :=
  (two_ring_minimal_disruption labelValue 2 (by decide) [.replace ["a", "b"]]
    [.replace ["a", "b"], .add "c"] (by decide)).2.1 "c" rfl "b#5" (by decide)

end LegalLens.Workers.ConsistentHashRing
