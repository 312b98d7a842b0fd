import LegalLens.Workers.HashRing

/-!
# The ring refines a set of workers

The abstract state of a ring is the finite set of live worker ids. When the hash is
injective on the vnode labels that occur, every history of calls leaves the ring in the
one concrete state determined by its live set. Injectivity is asked of the label
strings only; labels determine their worker even when ids contain the separator.
-/

namespace LegalLens.Workers.ConsistentHashRing

open ClockwiseSearch Sequences

/-- Worker ids a call mentions, whether or not they end up on the ring. -/
def Op.ids : Op → List String
  | .add w => [w]
  | .remove w => [w]
  | .replace ws => ws

def mentioned (ops : List Op) : List String := ops.flatMap Op.ids

def liveStep (L : Finset String) : Op → Finset String
  | .add w => insert w L
  | .remove w => L.erase w
  | .replace ws => ws.toFinset

def live (ops : List Op) : Finset String := ops.foldl liveStep ∅

theorem live_concat (ops : List Op) (op : Op) : live (ops ++ [op]) = liveStep (live ops) op := by
  simp [live]

theorem mentioned_append (ops ops' : List Op) :
    mentioned (ops ++ ops') = mentioned ops ++ mentioned ops' :=
  List.flatMap_append

def vnodeLabels (n : ℤ) (ids : List String) : List String :=
  ids.flatMap fun w => (List.range n.toNat).map (vnodeLabel w)

/-- The hash does not collide on the labels of the given worker ids. -/
def InjectiveOnLabels (hash : String → ℕ) (n : ℤ) (ids : List String) : Prop :=
  ∀ s ∈ vnodeLabels n ids, ∀ t ∈ vnodeLabels n ids, hash s = hash t → s = t

instance (hash : String → ℕ) (n : ℤ) (ids : List String) :
    Decidable (InjectiveOnLabels hash n ids) :=
  inferInstanceAs (Decidable (∀ s ∈ vnodeLabels n ids, ∀ t ∈ vnodeLabels n ids,
    hash s = hash t → s = t))

variable {hash : String → ℕ} {n : ℤ} {ids : List String}

theorem mem_vnodeLabels {w : String} {i : ℕ} (hw : w ∈ ids) (hi : i < n.toNat) :
    vnodeLabel w i ∈ vnodeLabels n ids :=
  List.mem_flatMap.mpr ⟨w, hw, List.mem_map.mpr ⟨i, List.mem_range.mpr hi, rfl⟩⟩

theorem InjectiveOnLabels.mono {ids' : List String} (h : InjectiveOnLabels hash n ids)
    (hsub : ids' ⊆ ids) : InjectiveOnLabels hash n ids' := by
  have hl : vnodeLabels n ids' ⊆ vnodeLabels n ids := by
    intro s hs
    obtain ⟨w, hw, hs⟩ := List.mem_flatMap.mp hs
    exact List.mem_flatMap.mpr ⟨w, hsub hw, hs⟩
  exact fun s hs t ht => h s (hl hs) t (hl ht)

theorem InjectiveOnLabels.of_injective (h : Function.Injective hash) :
    InjectiveOnLabels hash n ids :=
  fun _ _ _ _ heq => h heq

theorem InjectiveOnLabels.owner_unique (h : InjectiveOnLabels hash n ids) {v w : String} {i j : ℕ}
    (hv : v ∈ ids) (hw : w ∈ ids) (hi : i < n.toNat) (hj : j < n.toNat)
    (hp : hash (vnodeLabel v i) = hash (vnodeLabel w j)) : v = w :=
  (vnodeLabel_inj (h _ (mem_vnodeLabels hv hi) _ (mem_vnodeLabels hw hj) hp)).1

/-- The dictionary sends exactly the points of the workers in `L` to their workers. -/
def Maps (hash : String → ℕ) (n : ℤ) (d : Dict ℕ String) (L : Finset String) : Prop :=
  ∀ p w, d.get? p = some w ↔ w ∈ L ∧ ∃ i < n.toNat, hash (vnodeLabel w i) = p

theorem maps_empty : Maps hash n Dict.empty ∅ := by
  intro p w
  simp

theorem Maps.assignVnodes {d : Dict ℕ String} {L : Finset String} (h : Maps hash n d L)
    (hinj : InjectiveOnLabels hash n ids) (hL : ∀ v ∈ L, v ∈ ids) {w : String} (hw : w ∈ ids) :
    Maps hash n (assignVnodes hash (List.range n.toNat) d w) (insert w L) := by
  intro p v
  rw [get?_assignVnodes]
  simp only [List.mem_range, Finset.mem_insert]
  split_ifs with hp
  · obtain ⟨i, hi, hpi⟩ := hp
    constructor
    · intro hv
      cases hv
      exact ⟨Or.inl rfl, i, hi, hpi⟩
    · rintro ⟨hv, j, hj, hpj⟩
      have hvids : v ∈ ids := hv.elim (fun he => he ▸ hw) (hL v)
      rw [hinj.owner_unique hw hvids hi hj (hpi.trans hpj.symm)]
  · rw [h p v]
    constructor
    · rintro ⟨hv, hex⟩
      exact ⟨Or.inr hv, hex⟩
    · rintro ⟨rfl | hv, hex⟩
      · exact absurd hex hp
      · exact ⟨hv, hex⟩

theorem Maps.popVnodes {d : Dict ℕ String} {L : Finset String} (h : Maps hash n d L)
    (hinj : InjectiveOnLabels hash n ids) (hL : ∀ v ∈ L, v ∈ ids) {w : String} (hw : w ∈ ids) :
    Maps hash n (popVnodes hash (List.range n.toNat) d w) (L.erase w) := by
  intro p v
  rw [get?_popVnodes]
  simp only [List.mem_range, Finset.mem_erase]
  split_ifs with hp
  · obtain ⟨i, hi, hpi⟩ := hp
    simp only [false_iff]
    rintro ⟨⟨hne, hv⟩, j, hj, hpj⟩
    exact hne (hinj.owner_unique (hL v hv) hw hj hi (hpj.trans hpi.symm))
  · rw [h p v]
    constructor
    · rintro ⟨hv, hex⟩
      exact ⟨⟨fun he => hp (he ▸ hex), hv⟩, hex⟩
    · rintro ⟨⟨-, hv⟩, hex⟩
      exact ⟨hv, hex⟩

theorem Maps.foldl_assignVnodes {d : Dict ℕ String} {L : Finset String} (h : Maps hash n d L)
    (hinj : InjectiveOnLabels hash n ids) (hL : ∀ v ∈ L, v ∈ ids) {ws : List String}
    (hws : ∀ w ∈ ws, w ∈ ids) :
    Maps hash n (ws.foldl (ConsistentHashRing.assignVnodes hash (List.range n.toNat)) d)
      (L ∪ ws.toFinset) := by
  induction ws generalizing d L with
  | nil => simpa using h
  | cons w ws ih =>
    have hw : w ∈ ids := hws w (by simp)
    have hL' : ∀ v ∈ insert w L, v ∈ ids := by
      intro v hv
      rcases Finset.mem_insert.mp hv with rfl | hv
      · exact hw
      · exact hL v hv
    have hstep := ih (h.assignVnodes hinj hL hw) hL' fun v hv => hws v (by simp [hv])
    rwa [List.toFinset_cons, Finset.union_insert, ← Finset.insert_union, List.foldl_cons]

/-- The abstraction relation between a ring and its live set. -/
structure Represents (hash : String → ℕ) (r : ConsistentHashRing) (L : Finset String) : Prop where
  indexed : r.Indexed
  maps : Maps hash r.virtualNodes r.ring L

theorem live_subset_mentioned (ops : List Op) : ∀ w ∈ live ops, w ∈ mentioned ops := by
  induction ops using List.reverseRecOn with
  | nil => simp [live]
  | append_singleton ops op ih =>
    intro w hw
    rw [live_concat] at hw
    simp only [mentioned_append, List.mem_append]
    cases op with
    | add v =>
      rcases Finset.mem_insert.mp hw with rfl | hw
      · exact Or.inr (by simp [mentioned, Op.ids])
      · exact Or.inl (ih w hw)
    | remove v => exact Or.inl (ih w (Finset.mem_of_mem_erase hw))
    | replace ws => exact Or.inr (by simpa [liveStep, mentioned, Op.ids] using hw)

/-- Each call simulates the corresponding step on live sets. -/
theorem Represents.apply {r : ConsistentHashRing} {L : Finset String} (h : Represents hash r L)
    (hinj : InjectiveOnLabels hash r.virtualNodes ids) (hL : ∀ v ∈ L, v ∈ ids) (op : Op)
    (hop : ∀ w ∈ op.ids, w ∈ ids) : Represents hash (r.apply hash op) (liveStep L op) := by
  constructor
  · exact indexed_apply hash r op
  · rw [virtualNodes_apply]
    cases op with
    | add w => exact h.maps.assignVnodes hinj hL (hop w (by simp [Op.ids]))
    | remove w => exact h.maps.popVnodes hinj hL (hop w (by simp [Op.ids]))
    | replace ws =>
      have hempty : Maps hash r.virtualNodes Dict.empty ∅ := maps_empty
      have hm := hempty.foldl_assignVnodes hinj (by simp) hop
      rwa [Finset.empty_union] at hm

theorem run_concat (ops : List Op) (op : Op) :
    run hash n (ops ++ [op]) = (run hash n ops).apply hash op := by
  simp [run, applyAll]

@[simp] theorem virtualNodes_run (ops : List Op) : (run hash n ops).virtualNodes = n :=
  virtualNodes_applyAll hash (init n) ops

theorem represents_run (ops : List Op) (hinj : InjectiveOnLabels hash n (mentioned ops)) :
    Represents hash (run hash n ops) (live ops) := by
  induction ops using List.reverseRecOn with
  | nil => exact ⟨indexed_init n, maps_empty⟩
  | append_singleton ops op ih =>
    rw [mentioned_append] at hinj
    rw [run_concat, live_concat]
    have hops : InjectiveOnLabels hash n (mentioned ops) := hinj.mono (by simp)
    have hboth : InjectiveOnLabels hash (run hash n ops).virtualNodes
        (mentioned ops ++ mentioned [op]) := by
      rwa [virtualNodes_run]
    refine (ih hops).apply hboth ?_ op ?_
    · intro v hv
      exact List.mem_append_left _ (live_subset_mentioned ops v hv)
    · intro w hw
      exact List.mem_append_right _ (by simpa [mentioned] using hw)

/-! ## What the live set determines -/

theorem Represents.get?_congr {r s : ConsistentHashRing} {L : Finset String}
    (hr : Represents hash r L) (hs : Represents hash s L)
    (hn : r.virtualNodes = s.virtualNodes) (p : ℕ) : r.ring.get? p = s.ring.get? p := by
  apply Option.ext
  intro w
  rw [hr.maps p w, hs.maps p w, hn]

theorem Represents.mem_values_iff {r : ConsistentHashRing} {L : Finset String}
    (h : Represents hash r L) (hn : 1 ≤ r.virtualNodes) (w : String) :
    w ∈ r.ring.values ↔ w ∈ L := by
  rw [Dict.mem_values_iff]
  constructor
  · rintro ⟨p, hp⟩
    exact ((h.maps p w).mp hp).1
  · intro hw
    exact ⟨hash (vnodeLabel w 0), (h.maps _ w).mpr ⟨hw, 0, by omega, rfl⟩⟩

theorem Represents.workers_eq {r : ConsistentHashRing} {L : Finset String}
    (h : Represents hash r L) (hn : 1 ≤ r.virtualNodes) : r.workers = L.sort (· ≤ ·) :=
  sorted_eq_sort (List.nodup_dedup _) fun w => by rw [List.mem_dedup, h.mem_values_iff hn]

theorem Represents.len_eq {r : ConsistentHashRing} {L : Finset String}
    (h : Represents hash r L) (hn : 1 ≤ r.virtualNodes) : r.len = L.card := by
  have hset : r.ring.values.toFinset = L := by
    ext w
    rw [List.mem_toFinset, h.mem_values_iff hn]
  rw [len, ← hset, List.card_toFinset]

theorem Represents.getWorker_cases {r : ConsistentHashRing} {L : Finset String}
    (h : Represents hash r L) (hn : 1 ≤ r.virtualNodes) (key : String) :
    (L = ∅ ∧ r.getWorker hash key = .ok none) ∨
      ∃ p w, IsSuccessor r.points (hash key) p ∧ r.ring.get? p = some w ∧ w ∈ L ∧
        r.getWorker hash key = .ok (some w) := by
  rcases h.indexed.getWorker_cases hash key with ⟨hempty, hnone⟩ | ⟨p, w, hp, hw, hget⟩
  · refine Or.inl ⟨Finset.eq_empty_of_forall_notMem fun w hw => ?_, hnone⟩
    have hmem : hash (vnodeLabel w 0) ∈ r.points :=
      ⟨w, (h.maps _ w).mpr ⟨hw, 0, by omega, rfl⟩⟩
    simp [hempty] at hmem
  · exact Or.inr ⟨p, w, hp, hw, ((h.maps p w).mp hw).1, hget⟩

/-- Two rings whose hash separates both live sets: if each owner lives in the other ring
too, the owners coincide. -/
theorem Represents.owner_eq {r s : ConsistentHashRing} {L M : Finset String}
    (hr : Represents hash r L) (hs : Represents hash s M) (hn : r.virtualNodes = s.virtualNodes)
    (hinj : InjectiveOnLabels hash r.virtualNodes ids) (hL : ∀ v ∈ L, v ∈ ids)
    (hM : ∀ v ∈ M, v ∈ ids) {key o o' : String}
    (ho : r.getWorker hash key = .ok (some o)) (ho' : s.getWorker hash key = .ok (some o'))
    (hoM : o ∈ M) (hoL : o' ∈ L) : o = o' := by
  obtain ⟨p, hp, hpo⟩ := (hr.indexed.getWorker_eq_some_iff hash).mp ho
  obtain ⟨q, hq, hqo⟩ := (hs.indexed.getWorker_eq_some_iff hash).mp ho'
  obtain ⟨-, i, hi, hpi⟩ := (hr.maps p o).mp hpo
  obtain ⟨-, j, hj, hqj⟩ := (hs.maps q o').mp hqo
  have hps : p ∈ s.points := ⟨o, (hs.maps p o).mpr ⟨hoM, i, hn ▸ hi, hpi⟩⟩
  have hqr : q ∈ r.points := ⟨o', (hr.maps q o').mpr ⟨hoL, j, hn ▸ hj, hqj⟩⟩
  have hpq : p = q := hp.eq_of_mem hq hps hqr
  rw [← hn] at hj
  exact hinj.owner_unique (hL o ((hr.maps p o).mp hpo).1) (hM o' ((hs.maps q o').mp hqo).1)
    hi hj (hpi.trans (hpq.trans hqj.symm))

end LegalLens.Workers.ConsistentHashRing
