import LegalLens.Library.Dict

/-!
# Association lists read from the end

A list of key-value cells with repetitions stands for the map that sends a key to the
value of its last cell. Appending a cell and overwriting the last cell of a key are both
point updates of that map, and the dictionary built by enumerating the keys in order
knows the index of each last cell.
-/

namespace LastWins

variable {K V : Type*} [DecidableEq K]

def lastIndex (k : K) : List K → Option ℕ
  | [] => none
  | x :: xs =>
    match lastIndex k xs with
    | some i => some (i + 1)
    | none => if x = k then some 0 else none

/-- The enumeration `{k: i for i, k in enumerate(keys)}`. -/
def indexByKey (ks : List K) : Dict K ℕ :=
  ks.zipIdx.foldl (fun d e => d.set e.1 e.2) Dict.empty

def lookup (k : K) (cells : List (K × V)) : Option V :=
  (lastIndex k (cells.map Prod.fst)).bind fun i => cells[i]?.map Prod.snd

theorem lastIndex_eq_none_iff {k : K} {xs : List K} : lastIndex k xs = none ↔ k ∉ xs := by
  induction xs with
  | nil => simp [lastIndex]
  | cons x xs ih =>
    unfold lastIndex
    cases h : lastIndex k xs with
    | none => simp [ih.mp h, eq_comm]
    | some i =>
      have hmem : k ∈ xs := by
        by_contra hk
        simp [ih.mpr hk] at h
      simp [hmem]

theorem getElem?_of_lastIndex {k : K} {xs : List K} {i : ℕ} (h : lastIndex k xs = some i) :
    xs[i]? = some k := by
  induction xs generalizing i with
  | nil => simp [lastIndex] at h
  | cons x xs ih =>
    unfold lastIndex at h
    cases hl : lastIndex k xs with
    | none =>
      simp only [hl] at h
      split_ifs at h with hx
      cases h
      simp [hx]
    | some j =>
      simp only [hl, Option.some.injEq] at h
      subst h
      simpa using ih hl

theorem lastIndex_lt {k : K} {xs : List K} {i : ℕ} (h : lastIndex k xs = some i) :
    i < xs.length :=
  (List.getElem?_eq_some_iff.mp (getElem?_of_lastIndex h)).1

theorem lastIndex_inj {k l : K} {xs : List K} {i : ℕ} (hk : lastIndex k xs = some i)
    (hl : lastIndex l xs = some i) : k = l :=
  Option.some.inj ((getElem?_of_lastIndex hk).symm.trans (getElem?_of_lastIndex hl))

theorem lastIndex_append (k : K) (xs ys : List K) :
    lastIndex k (xs ++ ys) =
      match lastIndex k ys with
      | some i => some (xs.length + i)
      | none => lastIndex k xs := by
  induction xs with
  | nil => cases h : lastIndex k ys <;> simp [lastIndex, h]
  | cons x xs ih =>
    rw [List.cons_append, lastIndex, ih]
    cases h : lastIndex k ys with
    | none => rfl
    | some i => simp; omega

theorem lastIndex_append_of_notMem {k : K} {xs ys : List K} (h : k ∉ ys) :
    lastIndex k (xs ++ ys) = lastIndex k xs := by
  rw [lastIndex_append, lastIndex_eq_none_iff.mpr h]

theorem lastIndex_concat (k x : K) (xs : List K) :
    lastIndex k (xs ++ [x]) = if x = k then some xs.length else lastIndex k xs := by
  rw [lastIndex_append]
  by_cases h : x = k <;> simp [lastIndex, h]

theorem get?_indexByKey (ks : List K) (k : K) : (indexByKey ks).get? k = lastIndex k ks := by
  unfold indexByKey
  induction ks using List.reverseRecOn with
  | nil => rfl
  | append_singleton ks x ih =>
    rw [List.zipIdx_append, List.foldl_append, lastIndex_concat]
    simp [ih, eq_comm]

theorem set_eq_self_of_getElem? {α : Type*} {xs : List α} {i : ℕ} {a : α} (h : xs[i]? = some a) :
    xs.set i a = xs := by
  obtain ⟨hi, rfl⟩ := List.getElem?_eq_some_iff.mp h
  exact List.set_getElem_self hi

@[simp] theorem lookup_nil (k : K) : lookup k ([] : List (K × V)) = none := rfl

theorem lookup_map {W : Type*} (f : V → W) (k : K) (cells : List (K × V)) :
    lookup k (cells.map fun c => (c.1, f c.2)) = (lookup k cells).map f := by
  unfold lookup
  rw [List.map_map]
  simp [Function.comp_def, Option.map_bind]

theorem lookup_concat (k x : K) (v : V) (cells : List (K × V)) :
    lookup k (cells ++ [(x, v)]) = if k = x then some v else lookup k cells := by
  unfold lookup
  rw [List.map_append, List.map_singleton, lastIndex_concat]
  by_cases h : x = k
  · simp [h]
  · rw [if_neg h, if_neg (Ne.symm h)]
    cases hl : lastIndex k (cells.map Prod.fst) with
    | none => rfl
    | some i =>
      have hlt : i < cells.length := by simpa using lastIndex_lt hl
      simp [List.getElem?_append_left hlt]

theorem lookup_set {x : K} {i : ℕ} {cells : List (K × V)}
    (hi : lastIndex x (cells.map Prod.fst) = some i) (v : V) (k : K) :
    lookup k (cells.set i (x, v)) = if k = x then some v else lookup k cells := by
  have hlt : i < cells.length := by simpa using lastIndex_lt hi
  have hkeys : (cells.set i (x, v)).map Prod.fst = cells.map Prod.fst := by
    rw [List.map_set]
    exact set_eq_self_of_getElem? (getElem?_of_lastIndex hi)
  unfold lookup
  rw [hkeys]
  by_cases h : k = x
  · subst h
    simp [hi, hlt]
  · rw [if_neg h]
    cases hl : lastIndex k (cells.map Prod.fst) with
    | none => rfl
    | some j =>
      have hij : i ≠ j := fun he => h (lastIndex_inj hl (he ▸ hi))
      simp [List.getElem?_set_ne hij]

/-- Cells that differ from others at last occurrences only, and give every key the same
value, are the others. -/
theorem eq_of_lookup_eq {cells cells' : List (K × V)}
    (hkeys : cells'.map Prod.fst = cells.map Prod.fst)
    (hrest : ∀ i, (∀ k, lastIndex k (cells.map Prod.fst) ≠ some i) → cells'[i]? = cells[i]?)
    (hlookup : ∀ k, lookup k cells' = lookup k cells) : cells' = cells := by
  apply List.ext_getElem?
  intro i
  by_cases h : ∃ k, lastIndex k (cells.map Prod.fst) = some i
  · obtain ⟨k, hk⟩ := h
    have hlt : i < cells.length := by simpa using lastIndex_lt hk
    have hlt' : i < cells'.length := by
      rw [← List.length_map Prod.fst, hkeys]
      exact lastIndex_lt hk
    have hfst : cells'[i].1 = cells[i].1 := by
      have := congrArg (fun ks : List K => ks[i]?) hkeys
      simpa [hlt, hlt'] using this
    have hsnd : cells'[i].2 = cells[i].2 := by
      have := hlookup k
      simpa [lookup, hkeys, hk, hlt, hlt'] using this
    rw [List.getElem?_eq_getElem hlt, List.getElem?_eq_getElem hlt', Prod.ext hfst hsnd]
  · exact hrest i fun k hk => h ⟨k, hk⟩

theorem lookup_eq_none_iff {k : K} {cells : List (K × V)} :
    lookup k cells = none ↔ k ∉ cells.map Prod.fst := by
  rw [← lastIndex_eq_none_iff]
  unfold lookup
  cases h : lastIndex k (cells.map Prod.fst) with
  | none => simp
  | some i =>
    have hlt : i < cells.length := by simpa using lastIndex_lt h
    simp [hlt]

end LastWins
