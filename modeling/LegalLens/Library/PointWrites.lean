import Mathlib.Tactic

/-!
# Writes at positions of a list

A sequence of writes overwrites elements of a list. Only the last write at a position
counts, so the list is as it was exactly if the last write at every position is what
already stands there.
-/

namespace PointWrites

variable {α : Type*}

/-- Apply writes in order; a position beyond the end is ignored. -/
def writeAll (xs : List α) (ws : List (ℕ × α)) : List α :=
  ws.foldl (fun xs w => xs.set w.1 w.2) xs

theorem writeAll_append (xs : List α) (ws ws' : List (ℕ × α)) :
    writeAll xs (ws ++ ws') = writeAll (writeAll xs ws) ws' :=
  List.foldl_append

@[simp] theorem length_writeAll (xs : List α) (ws : List (ℕ × α)) :
    (writeAll xs ws).length = xs.length := by
  induction ws generalizing xs with
  | nil => rfl
  | cons w ws ih => exact (ih (xs.set w.1 w.2)).trans List.length_set

theorem getElem?_writeAll_of_notMem {ws : List (ℕ × α)} {i : ℕ} (h : i ∉ ws.map Prod.fst)
    (xs : List α) : (writeAll xs ws)[i]? = xs[i]? := by
  induction ws generalizing xs with
  | nil => rfl
  | cons w ws ih =>
    rw [List.map_cons, List.mem_cons, not_or] at h
    exact (ih h.2 (xs.set w.1 w.2)).trans (List.getElem?_set_ne (Ne.symm h.1))

theorem getElem?_writeAll_of_last {before after : List (ℕ × α)} {i : ℕ} {v : α}
    (hlast : i ∉ after.map Prod.fst) {xs : List α} (hi : i < xs.length) :
    (writeAll xs (before ++ (i, v) :: after))[i]? = some v := by
  rw [writeAll_append]
  refine (getElem?_writeAll_of_notMem hlast _).trans ?_
  exact List.getElem?_set_self (by rwa [length_writeAll])

theorem writeAll_eq_self {xs : List α} {ws : List (ℕ × α)}
    (h : ∀ w ∈ ws, xs[w.1]? = some w.2) : writeAll xs ws = xs := by
  induction ws with
  | nil => rfl
  | cons w ws ih =>
    obtain ⟨hlt, heq⟩ := List.getElem?_eq_some_iff.mp (h w List.mem_cons_self)
    have hset : xs.set w.1 w.2 = xs := by
      rw [← heq]
      exact List.set_getElem_self hlt
    have hstep : writeAll xs (w :: ws) = writeAll (xs.set w.1 w.2) ws := rfl
    rw [hstep, hset, ih fun w' hw' => h w' (List.mem_cons_of_mem w hw')]

theorem map_writeAll {γ : Type*} (f : α → γ) (xs : List α) (ws : List (ℕ × α)) :
    (writeAll xs ws).map f = writeAll (xs.map f) (ws.map fun w => (w.1, f w.2)) := by
  induction ws generalizing xs with
  | nil => rfl
  | cons w ws ih =>
    have hstep : writeAll xs (w :: ws) = writeAll (xs.set w.1 w.2) ws := rfl
    rw [hstep, ih, List.map_set]
    rfl

theorem exists_last_write {ws : List (ℕ × α)} {i : ℕ} (h : i ∈ ws.map Prod.fst) :
    ∃ before v after, ws = before ++ (i, v) :: after ∧ i ∉ after.map Prod.fst := by
  induction ws with
  | nil => cases h
  | cons w ws ih =>
    by_cases hrest : i ∈ ws.map Prod.fst
    · obtain ⟨before, v, after, rfl, hlast⟩ := ih hrest
      exact ⟨w :: before, v, after, rfl, hlast⟩
    · rw [List.map_cons, List.mem_cons] at h
      obtain rfl := h.resolve_right hrest
      exact ⟨[], w.2, ws, rfl, hrest⟩

theorem writeAll_eq_self_iff {xs : List α} {ws : List (ℕ × α)}
    (hbound : ∀ w ∈ ws, w.1 < xs.length) :
    writeAll xs ws = xs ↔ ∀ before i v after, ws = before ++ (i, v) :: after →
      i ∉ after.map Prod.fst → xs[i]? = some v := by
  constructor
  · rintro h before i v after rfl hlast
    have hi : i < xs.length := hbound (i, v) (by simp)
    have hread : (writeAll xs (before ++ (i, v) :: after))[i]? = some v :=
      getElem?_writeAll_of_last hlast hi
    rwa [h] at hread
  · intro h
    apply List.ext_getElem?
    intro i
    by_cases hi : i ∈ ws.map Prod.fst
    · obtain ⟨before, v, after, rfl, hlast⟩ := exists_last_write hi
      have hbound' : i < xs.length := hbound (i, v) (by simp)
      rw [getElem?_writeAll_of_last hlast hbound', h before i v after rfl hlast]
    · exact getElem?_writeAll_of_notMem hi xs

theorem writeAll_map_eq_self_iff {γ : Type*} (f : γ → α) {xs : List α} {ws : List (ℕ × γ)}
    (hbound : ∀ w ∈ ws, w.1 < xs.length) :
    writeAll xs (ws.map fun w => (w.1, f w.2)) = xs ↔ ∀ before i v after,
      ws = before ++ (i, v) :: after → i ∉ after.map Prod.fst → xs[i]? = some (f v) := by
  have hbound' : ∀ w ∈ ws.map fun w => (w.1, f w.2), w.1 < xs.length := by
    intro w hw
    obtain ⟨w, hmem, rfl⟩ := List.mem_map.mp hw
    exact hbound w hmem
  rw [writeAll_eq_self_iff hbound']
  constructor
  · rintro h before i v after rfl hlast
    apply h (before.map fun w => (w.1, f w.2)) i (f v) (after.map fun w => (w.1, f w.2))
    · rw [List.map_append, List.map_cons]
    · rwa [List.map_map]
  · intro h before i v after heq hlast
    obtain ⟨before, rest, rfl, -, hrest⟩ := List.map_eq_append_iff.mp heq
    obtain ⟨w, after, rfl, hw, rfl⟩ := List.map_eq_cons_iff.mp hrest
    obtain ⟨rfl, rfl⟩ := Prod.mk.inj hw
    apply h before w.1 w.2 after rfl
    rwa [List.map_map] at hlast

end PointWrites
