import Mathlib.Data.List.Sort
import Mathlib.Tactic

/-!
# Stable sorting by a key, and the first elements of a ranking

Sorting by a key keeps the order of elements with equal keys. A prefix of a list whose
elements are related in order beats everything after the prefix, so the first `k` elements
of a ranking are a best choice of `k` elements.
-/

namespace Ranking

variable {α κ : Type*} [LinearOrder κ]

/-- The stable ascending sort by a key. -/
def sortedBy (key : α → κ) (xs : List α) : List α := xs.insertionSort fun a b => key a ≤ key b

theorem perm_sortedBy (key : α → κ) (xs : List α) : (sortedBy key xs).Perm xs :=
  List.perm_insertionSort _ xs

@[simp] theorem mem_sortedBy {key : α → κ} {xs : List α} {a : α} : a ∈ sortedBy key xs ↔ a ∈ xs :=
  (perm_sortedBy key xs).mem_iff

@[simp] theorem length_sortedBy (key : α → κ) (xs : List α) :
    (sortedBy key xs).length = xs.length :=
  (perm_sortedBy key xs).length_eq

/-- The order of a ranking: by key, and among equal keys as before. -/
def Outranks (key : α → κ) (before : α → α → Prop) (a b : α) : Prop :=
  key a < key b ∨ key a = key b ∧ before a b

theorem pairwise_orderedInsert {key : α → κ} {before : α → α → Prop} {a : α} {xs : List α}
    (ha : ∀ b ∈ xs, before a b) (h : xs.Pairwise (Outranks key before)) :
    (xs.orderedInsert (fun a b => key a ≤ key b) a).Pairwise (Outranks key before) := by
  induction xs with
  | nil => simp
  | cons b xs ih =>
    obtain ⟨hb, hxs⟩ := List.pairwise_cons.mp h
    rw [List.orderedInsert_cons]
    split_ifs with hab
    · rw [List.pairwise_cons]
      constructor
      · intro c hc
        have hbefore : before a c := ha c hc
        have hbc : key b ≤ key c := by
          rcases List.mem_cons.mp hc with rfl | hc
          · exact le_rfl
          · rcases hb c hc with hlt | ⟨heq, -⟩
            · exact hlt.le
            · exact heq.le
        rcases (hab.trans hbc).lt_or_eq with hlt | heq
        · exact Or.inl hlt
        · exact Or.inr ⟨heq, hbefore⟩
      · exact h
    · rw [List.pairwise_cons]
      constructor
      · intro c hc
        rcases List.mem_orderedInsert (fun a b => key a ≤ key b) |>.mp hc with rfl | hc
        · exact Or.inl (not_le.mp hab)
        · exact hb c hc
      · apply ih _ hxs
        intro c hc
        exact ha c (List.mem_cons_of_mem b hc)

/-- Sorting is stable: elements with equal keys keep their order. -/
theorem pairwise_sortedBy {key : α → κ} {before : α → α → Prop} {xs : List α}
    (h : xs.Pairwise before) : (sortedBy key xs).Pairwise (Outranks key before) := by
  induction xs with
  | nil => exact List.Pairwise.nil
  | cons a xs ih =>
    obtain ⟨ha, hxs⟩ := List.pairwise_cons.mp h
    apply pairwise_orderedInsert _ (ih hxs)
    intro b hb
    exact ha b (mem_sortedBy.mp hb)

theorem rel_of_mem_take {r : α → α → Prop} {xs : List α} (h : xs.Pairwise r) {k : ℕ} {a b : α}
    (ha : a ∈ xs.take k) (hb : b ∈ xs) (hbk : b ∉ xs.take k) : r a b := by
  rw [← List.take_append_drop k xs] at h hb
  have hdrop : b ∈ xs.drop k := (List.mem_append.mp hb).resolve_left hbk
  exact (List.pairwise_append.mp h).2.2 a ha b hdrop

/-- In a list that is ordered by an asymmetric relation, an element stands at the index that
counts the elements related to it. -/
theorem countP_of_getElem? {r : α → α → Prop} [DecidableRel r] (hr : ∀ a b, r a b → ¬r b a)
    {xs : List α} (h : xs.Pairwise r) {p : ℕ} {a : α} (ha : xs[p]? = some a) :
    xs.countP (fun b => r b a) = p := by
  induction xs generalizing p with
  | nil => simp at ha
  | cons b xs ih =>
    obtain ⟨hb, hxs⟩ := List.pairwise_cons.mp h
    cases p with
    | zero =>
      cases ha
      rw [List.countP_eq_zero]
      intro c hc hca
      have hrel : r c a := of_decide_eq_true hca
      rcases List.mem_cons.mp hc with rfl | hc
      · exact hr c c hrel hrel
      · exact hr a c (hb c hc) hrel
    | succ p =>
      rw [List.getElem?_cons_succ] at ha
      have hba : r b a := hb a (List.mem_of_getElem? ha)
      rw [List.countP_cons, ih hxs ha, if_pos (decide_eq_true hba)]

/-- Before in the stable ranking: a smaller key, or the same key and a smaller index. -/
def Precedes (key : α → κ) (a b : α × ℕ) : Prop :=
  key a.1 < key b.1 ∨ key a.1 = key b.1 ∧ a.2 < b.2

instance (key : α → κ) : DecidableRel (Precedes key) :=
  fun a b => inferInstanceAs (Decidable (key a.1 < key b.1 ∨ key a.1 = key b.1 ∧ a.2 < b.2))

theorem Precedes.asymm {key : α → κ} {a b : α × ℕ} (h : Precedes key a b) :
    ¬Precedes key b a := by
  rintro (hlt | ⟨heq, hlt⟩)
  · rcases h with hlt' | ⟨heq', -⟩
    · exact lt_asymm hlt hlt'
    · exact hlt.ne heq'.symm
  · rcases h with hlt' | ⟨-, hlt'⟩
    · exact hlt'.ne heq.symm
    · exact lt_asymm hlt hlt'

/-- How many elements of the list are ranked before the element at the index. -/
def rank (key : α → κ) (xs : List α) (a : α) (i : ℕ) : ℕ :=
  xs.zipIdx.countP fun b => Precedes key b (a, i)

/-- The first `k` of a stable ranking are the elements with fewer than `k` before them. -/
theorem mem_take_sortedBy_iff {key : α → κ} {xs : List α} {k : ℕ} {a : α} :
    a ∈ (sortedBy key xs).take k ↔ ∃ i, xs[i]? = some a ∧ rank key xs a i < k := by
  let ranked := sortedBy (fun b : α × ℕ => key b.1) xs.zipIdx
  have hperm : ranked.Perm xs.zipIdx := perm_sortedBy _ _
  have hmap : ranked.map Prod.fst = sortedBy key xs := by
    have h := List.map_insertionSort (r := fun a b : α × ℕ => key a.1 ≤ key b.1)
      (s := fun a b : α => key a ≤ key b) Prod.fst xs.zipIdx fun _ _ _ _ => Iff.rfl
    rwa [List.zipIdx_map_fst] at h
  have hindex : xs.zipIdx.Pairwise fun a b => a.2 < b.2 := by
    rw [List.pairwise_iff_getElem]
    intro i j hi hj hij
    simpa using hij
  have hranked : ranked.Pairwise (Precedes key) := pairwise_sortedBy hindex
  have hposition : ∀ {p b}, ranked[p]? = some b → rank key xs b.1 b.2 = p := by
    intro p b hb
    rw [rank, ← hperm.countP_eq]
    exact countP_of_getElem? (fun _ _ h => h.asymm) hranked hb
  constructor
  · intro h
    obtain ⟨p, hlt, heq⟩ := List.mem_take_iff_getElem.mp h
    have hp : (sortedBy key xs)[p]? = some a :=
      List.getElem?_eq_some_iff.mpr ⟨hlt.trans_le (Nat.min_le_right _ _), heq⟩
    rw [← hmap, List.getElem?_map] at hp
    obtain ⟨⟨b, i⟩, hb, rfl⟩ := Option.map_eq_some_iff.mp hp
    have hmem : (b, i) ∈ xs.zipIdx := hperm.mem_iff.mp (List.mem_of_getElem? hb)
    refine ⟨i, List.mk_mem_zipIdx_iff_getElem?.mp hmem, ?_⟩
    rw [hposition hb]
    exact hlt.trans_le (Nat.min_le_left _ _)
  · rintro ⟨i, hi, hrank⟩
    have hmem : (a, i) ∈ ranked :=
      hperm.mem_iff.mpr (List.mk_mem_zipIdx_iff_getElem?.mpr hi)
    obtain ⟨p, hp⟩ := List.mem_iff_getElem?.mp hmem
    rw [hposition hp] at hrank
    apply List.mem_iff_getElem?.mpr
    refine ⟨p, ?_⟩
    rw [List.getElem?_take_of_lt hrank, ← hmap, List.getElem?_map, hp, Option.map_some]

end Ranking
