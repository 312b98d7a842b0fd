import Mathlib.Data.Finset.Sort
import Mathlib.Data.List.Sort
import Mathlib.Data.String.Basic
import Mathlib.Tactic

/-!
# Sorting, positions, separators and decimal suffixes

Stable sorting is insertion sort, which agrees with every other stable sort and
evaluates in the kernel. A separator that occurs in neither right-hand part, or in
neither left-hand part, makes concatenation injective.
-/

namespace Sequences

section Sorting

variable {α β : Type*} [LinearOrder α]

def sorted (xs : List α) : List α := xs.insertionSort (· ≤ ·)

@[simp] theorem mem_sorted {xs : List α} {a : α} : a ∈ sorted xs ↔ a ∈ xs :=
  List.mem_insertionSort (· ≤ ·)

theorem sorted_sortedLE (xs : List α) : (sorted xs).SortedLE := List.sortedLE_insertionSort

theorem sorted_sortedLT {xs : List α} (h : xs.Nodup) : (sorted xs).SortedLT :=
  (sorted_sortedLE xs).sortedLT_of_nodup ((List.perm_insertionSort _ xs).nodup_iff.mpr h)

theorem sorted_eq_of_mem_iff {xs ys : List α} (hx : xs.Nodup) (hy : ys.Nodup)
    (h : ∀ a, a ∈ xs ↔ a ∈ ys) : sorted xs = sorted ys :=
  (sorted_sortedLT hx).eq_of_mem_iff (sorted_sortedLT hy) (by simpa using h)

theorem sorted_eq_sort {xs : List α} (hx : xs.Nodup) {s : Finset α} (h : ∀ a, a ∈ xs ↔ a ∈ s) :
    sorted xs = s.sort (· ≤ ·) :=
  (sorted_sortedLT hx).eq_of_mem_iff s.sortedLT_sort (by simpa using h)

theorem head_eq_of_mem_of_sortedLE {a : α} {xs : List α} (h : (a :: xs).SortedLE) (ha : a ∈ xs) :
    ∃ ys, xs = a :: ys := by
  cases xs with
  | nil => simp at ha
  | cons b ys =>
    have hp := List.pairwise_cons.mp h.pairwise
    have hab : a ≤ b := hp.1 b (by simp)
    have hba : b ≤ a := by
      rcases List.mem_cons.mp ha with rfl | hmem
      · exact le_rfl
      · exact (List.pairwise_cons.mp hp.2).1 a hmem
    exact ⟨ys, by rw [le_antisymm hab hba]⟩

theorem foldl_dedup_of_sortedLE (f : β → α → β) (hf : ∀ b a, f (f b a) a = f b a) {xs : List α}
    (h : xs.SortedLE) (b : β) : xs.dedup.foldl f b = xs.foldl f b := by
  induction xs generalizing b with
  | nil => rfl
  | cons a xs ih =>
    have hxs : xs.SortedLE := (List.pairwise_cons.mp h.pairwise).2.sortedLE
    by_cases ha : a ∈ xs
    · obtain ⟨ys, rfl⟩ := head_eq_of_mem_of_sortedLE h ha
      rw [List.dedup_cons_of_mem ha, ih hxs b]
      simp only [List.foldl_cons, hf]
    · rw [List.dedup_cons_of_notMem ha, List.foldl_cons, List.foldl_cons, ih hxs]

theorem dedup_sortedLT {xs : List α} (h : xs.SortedLE) : xs.dedup.SortedLT :=
  (h.pairwise.sublist (List.dedup_sublist xs)).sortedLE.sortedLT_of_nodup (List.nodup_dedup xs)

/-- Folding over the sorted enumeration depends on the set enumerated only, not on the
order or the repetitions of the enumeration. -/
theorem foldl_sorted_eq_of_mem_iff (f : β → α → β) (hf : ∀ b a, f (f b a) a = f b a)
    {xs ys : List α} (h : ∀ a, a ∈ xs ↔ a ∈ ys) (b : β) :
    (sorted xs).foldl f b = (sorted ys).foldl f b := by
  have hx := sorted_sortedLE xs
  have hy := sorted_sortedLE ys
  have hd : (sorted xs).dedup = (sorted ys).dedup :=
    (dedup_sortedLT hx).eq_of_mem_iff (dedup_sortedLT hy) (by simpa using h)
  rw [← foldl_dedup_of_sortedLE f hf hx, ← foldl_dedup_of_sortedLE f hf hy, hd]

end Sorting

/-- In a list whose elements are related in order, two elements that are not related either
way are at one index. -/
theorem index_eq_of_pairwise {α : Type*} {R : α → α → Prop} {xs : List α} (h : xs.Pairwise R)
    {i j : ℕ} {x y : α} (hi : xs[i]? = some x) (hj : xs[j]? = some y) (hxy : ¬R x y)
    (hyx : ¬R y x) : i = j := by
  obtain ⟨hilt, rfl⟩ := List.getElem?_eq_some_iff.mp hi
  obtain ⟨hjlt, rfl⟩ := List.getElem?_eq_some_iff.mp hj
  have hpair := List.pairwise_iff_getElem.mp h
  rcases lt_trichotomy i j with hlt | heq | hlt
  · exact absurd (hpair i j hilt hjlt hlt) hxy
  · exact heq
  · exact absurd (hpair j i hjlt hilt hlt) hyx

theorem mapM_eq_ok_map_iff {α β ε : Type*} (f : α → Except ε β) (g : α → β) (xs : List α) :
    xs.mapM f = .ok (xs.map g) ↔ ∀ x ∈ xs, f x = .ok (g x) := by
  induction xs with
  | nil => simp [pure, Except.pure]
  | cons x xs ih =>
    rw [List.mapM_cons, List.map_cons, List.forall_mem_cons, ← ih]
    cases hx : f x with
    | error e => simp [bind, Except.bind]
    | ok y => cases xs.mapM f <;> simp [bind, Except.bind, pure, Except.pure]

section Separators

variable {α : Type*}

theorem append_cons_inj_right {x₁ x₂ z₁ z₂ : List α} {a : α} (h₁ : a ∉ z₁) (h₂ : a ∉ z₂)
    (h : x₁ ++ a :: z₁ = x₂ ++ a :: z₂) : x₁ = x₂ ∧ z₁ = z₂ := by
  induction x₁ generalizing x₂ with
  | nil =>
    cases x₂ with
    | nil => simpa using h
    | cons b x₂ =>
      simp only [List.nil_append, List.cons_append, List.cons.injEq] at h
      exact absurd (h.2 ▸ by simp) h₁
  | cons b x₁ ih =>
    cases x₂ with
    | nil =>
      simp only [List.nil_append, List.cons_append, List.cons.injEq] at h
      exact absurd (h.2 ▸ by simp) h₂
    | cons c x₂ =>
      simp only [List.cons_append, List.cons.injEq] at h
      obtain ⟨hx, hz⟩ := ih h.2
      exact ⟨by rw [h.1, hx], hz⟩

theorem append_cons_inj_left {x₁ x₂ z₁ z₂ : List α} {a : α} (h₁ : a ∉ x₁) (h₂ : a ∉ x₂)
    (h : x₁ ++ a :: z₁ = x₂ ++ a :: z₂) : x₁ = x₂ ∧ z₁ = z₂ := by
  have hrev : z₁.reverse ++ a :: x₁.reverse = z₂.reverse ++ a :: x₂.reverse := by
    simpa using congrArg List.reverse h
  obtain ⟨hz, hx⟩ := append_cons_inj_right (by simpa using h₁) (by simpa using h₂) hrev
  exact ⟨List.reverse_injective hx, List.reverse_injective hz⟩

theorem not_mem_toDigits {c : Char} (hc : c.isDigit = false) (n : ℕ) : c ∉ Nat.toDigits 10 n := by
  intro h
  rw [Nat.isDigit_of_mem_toDigits (by omega) (by omega) h] at hc
  contradiction

theorem toDigits_inj {m n : ℕ} (h : Nat.toDigits 10 m = Nat.toDigits 10 n) : m = n := by
  rw [← Nat.ofDigitChars_ten_toDigits (n := m), ← Nat.ofDigitChars_ten_toDigits (n := n), h]

/-- A decimal number after a non-digit separator can be read back, whatever precedes it. -/
theorem append_decimal_inj {s t sep : String} {c : Char} (hsep : sep.toList = [c])
    (hc : c.isDigit = false) {m n : ℕ}
    (h : s ++ sep ++ toString m = t ++ sep ++ toString n) : s = t ∧ m = n := by
  have hl : s.toList ++ c :: Nat.toDigits 10 m = t.toList ++ c :: Nat.toDigits 10 n := by
    simpa [hsep] using congrArg String.toList h
  obtain ⟨hs, hd⟩ := append_cons_inj_right (not_mem_toDigits hc m) (not_mem_toDigits hc n) hl
  exact ⟨String.toList_injective hs, toDigits_inj hd⟩

end Separators

end Sequences
