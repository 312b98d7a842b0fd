import Mathlib.Tactic

/-!
# First occurrences by a key

Keep the first element of every key and drop the later ones. What is kept depends on the
key only through the question which elements share a key, so two keys that identify the
same elements keep the same list.
-/

namespace FirstOccurrences

variable {α β κ ι : Type*} [DecidableEq κ] [DecidableEq ι]

/-- The first element of every key, in order. -/
def firsts (key : α → κ) : List α → List α
  | [] => []
  | x :: xs => x :: (firsts key xs).filter fun y => key y ≠ key x

theorem sublist_firsts (key : α → κ) (xs : List α) : (firsts key xs).Sublist xs := by
  induction xs with
  | nil => exact List.Sublist.refl []
  | cons x xs ih => exact (List.filter_sublist.trans ih).cons_cons x

theorem nodup_map_firsts (key : α → κ) (xs : List α) : ((firsts key xs).map key).Nodup := by
  induction xs with
  | nil => exact List.nodup_nil
  | cons x xs ih =>
    rw [firsts, List.map_cons, List.nodup_cons]
    constructor
    · intro hmem
      obtain ⟨y, hy, heq⟩ := List.mem_map.mp hmem
      exact (of_decide_eq_true (List.mem_filter.mp hy).2) heq
    · exact ih.sublist (List.filter_sublist.map key)

theorem exists_mem_firsts (key : α → κ) {xs : List α} {x : α} (h : x ∈ xs) :
    ∃ y ∈ firsts key xs, key y = key x := by
  induction xs with
  | nil => cases h
  | cons z xs ih =>
    by_cases hz : key z = key x
    · exact ⟨z, List.mem_cons_self, hz⟩
    · have hmem : x ∈ xs := by
        rcases List.mem_cons.mp h with rfl | h
        · exact absurd rfl hz
        · exact h
      obtain ⟨y, hy, heq⟩ := ih hmem
      refine ⟨y, List.mem_cons_of_mem z (List.mem_filter.mpr ⟨hy, ?_⟩), heq⟩
      rw [heq]
      exact decide_eq_true (Ne.symm hz)

/-- What is kept stands before all elements that share its key. -/
theorem exists_prefix_of_mem_firsts (key : α → κ) {xs : List α} {x : α}
    (h : x ∈ firsts key xs) :
    ∃ before after, xs = before ++ x :: after ∧ key x ∉ before.map key := by
  induction xs with
  | nil => cases h
  | cons z xs ih =>
    rcases List.mem_cons.mp h with rfl | h
    · exact ⟨[], xs, rfl, List.not_mem_nil⟩
    · obtain ⟨hmem, hne⟩ := List.mem_filter.mp h
      obtain ⟨before, after, rfl, hfresh⟩ := ih hmem
      refine ⟨z :: before, after, rfl, ?_⟩
      rw [List.map_cons, List.mem_cons, not_or]
      exact ⟨of_decide_eq_true hne, hfresh⟩

theorem firsts_congr {key : α → κ} {key' : α → ι} {xs : List α}
    (h : ∀ x ∈ xs, ∀ y ∈ xs, key x = key y ↔ key' x = key' y) :
    firsts key xs = firsts key' xs := by
  induction xs with
  | nil => rfl
  | cons x xs ih =>
    have hrest := ih fun y hy z hz =>
      h y (List.mem_cons_of_mem x hy) z (List.mem_cons_of_mem x hz)
    rw [firsts, firsts, hrest]
    congr 1
    apply List.filter_congr
    intro y hy
    have hmem : y ∈ x :: xs := List.mem_cons_of_mem x ((sublist_firsts key' xs).subset hy)
    exact decide_eq_decide.mpr (not_congr (h y hmem x List.mem_cons_self))

theorem map_firsts (f : β → α) (key : α → κ) (xs : List β) :
    (firsts (key ∘ f) xs).map f = firsts key (xs.map f) := by
  induction xs with
  | nil => rfl
  | cons x xs ih =>
    rw [firsts, List.map_cons, List.map_cons, firsts, ← ih, List.filter_map]
    rfl

end FirstOccurrences
