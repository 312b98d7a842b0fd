import Mathlib.Data.List.Nodup
import Mathlib.Tactic

/-!
# Insertion-ordered dictionaries

A dictionary is an association list with pairwise distinct keys. Assigning to a
present key keeps its position, and a new key goes to the end; removing an absent
key leaves the dictionary unchanged. Iteration order is therefore observable,
while the lookup lemmas below speak about the underlying finite map only.
-/

/-- A finite map that remembers the order in which its keys were first assigned. -/
structure Dict (K V : Type*) where
  entries : List (K × V)
  nodup : (entries.map Prod.fst).Nodup

namespace Dict

variable {K V : Type*}

def empty : Dict K V := ⟨[], List.nodup_nil⟩

instance : Inhabited (Dict K V) := ⟨empty⟩

def keys (d : Dict K V) : List K := d.entries.map Prod.fst

def values (d : Dict K V) : List V := d.entries.map Prod.snd

theorem nodup_keys (d : Dict K V) : d.keys.Nodup := d.nodup

variable [DecidableEq K]

/-- First value stored under a key of an association list. -/
def find (k : K) : List (K × V) → Option V
  | [] => none
  | e :: es => if e.1 = k then some e.2 else find k es

/-- Overwrite in place, or append when the key is new. -/
def assign (k : K) (v : V) : List (K × V) → List (K × V)
  | [] => [(k, v)]
  | e :: es => if e.1 = k then (k, v) :: es else e :: assign k v es

theorem find_eq_none_iff (k : K) (es : List (K × V)) :
    find k es = none ↔ k ∉ es.map Prod.fst := by
  induction es with
  | nil => simp [find]
  | cons e es ih =>
    by_cases h : e.1 = k
    · simp [find, h]
    · simp [find, h, ih, Ne.symm h]

theorem find_eq_some_iff {k : K} {v : V} {es : List (K × V)}
    (hes : (es.map Prod.fst).Nodup) : find k es = some v ↔ (k, v) ∈ es := by
  induction es with
  | nil => simp [find]
  | cons e es ih =>
    simp only [List.map_cons, List.nodup_cons] at hes
    by_cases h : e.1 = k
    · subst h
      have hv : (e.1, v) ∉ es := fun hm => hes.1 (List.mem_map.mpr ⟨_, hm, rfl⟩)
      simp [find, hv, Prod.ext_iff, eq_comm]
    · have hne : (k, v) ≠ e := fun he => h (he ▸ rfl)
      simp [find, h, ih hes.2, hne]

theorem map_fst_assign (k : K) (v : V) (es : List (K × V)) :
    (assign k v es).map Prod.fst =
      if k ∈ es.map Prod.fst then es.map Prod.fst else es.map Prod.fst ++ [k] := by
  induction es with
  | nil => simp [assign]
  | cons e es ih =>
    by_cases h : e.1 = k
    · simp [assign, h]
    · simp only [assign, h, if_false, List.map_cons, ih, List.mem_cons, Ne.symm h, false_or]
      split_ifs <;> simp

theorem find_assign (k k' : K) (v : V) (es : List (K × V)) :
    find k' (assign k v es) = if k' = k then some v else find k' es := by
  induction es with
  | nil => simp [assign, find, eq_comm]
  | cons e es ih =>
    by_cases h : e.1 = k
    · by_cases hk : k' = k
      · simp [assign, find, h, hk]
      · simp [assign, find, h, hk, Ne.symm hk]
    · by_cases he : e.1 = k'
      · have hk : k' ≠ k := fun hk => h (he.trans hk)
        simp [assign, find, he, hk]
      · simp [assign, find, h, he, ih]

theorem find_filter_ne (k k' : K) (es : List (K × V)) :
    find k' (es.filter fun e => e.1 ≠ k) = if k' = k then none else find k' es := by
  induction es with
  | nil => simp [find]
  | cons e es ih =>
    by_cases h : e.1 = k
    · rw [List.filter_cons_of_neg (by simp [h]), ih]
      by_cases hk : k' = k
      · simp [hk]
      · simp [find, h, hk, Ne.symm hk]
    · rw [List.filter_cons_of_pos (by simpa using h)]
      by_cases he : e.1 = k'
      · have hk : k' ≠ k := fun hk => h (he.trans hk)
        simp [find, he, hk]
      · simp only [find, if_neg he, ih]

def get? (d : Dict K V) (k : K) : Option V := find k d.entries

def set (d : Dict K V) (k : K) (v : V) : Dict K V where
  entries := assign k v d.entries
  nodup := by
    rw [map_fst_assign]
    split_ifs with h
    · exact d.nodup
    · refine List.nodup_append.mpr ⟨d.nodup, List.nodup_singleton k, ?_⟩
      rintro a ha b hb rfl
      exact h (List.mem_singleton.mp hb ▸ ha)

def pop (d : Dict K V) (k : K) : Dict K V where
  entries := d.entries.filter fun e => e.1 ≠ k
  nodup := d.nodup.sublist (List.filter_sublist.map Prod.fst)

@[simp] theorem get?_empty (k : K) : (empty : Dict K V).get? k = none := rfl

@[simp] theorem get?_set (d : Dict K V) (k k' : K) (v : V) :
    (d.set k v).get? k' = if k' = k then some v else d.get? k' :=
  find_assign k k' v d.entries

@[simp] theorem get?_pop (d : Dict K V) (k k' : K) :
    (d.pop k).get? k' = if k' = k then none else d.get? k' :=
  find_filter_ne k k' d.entries

theorem get?_eq_some_iff {d : Dict K V} {k : K} {v : V} :
    d.get? k = some v ↔ (k, v) ∈ d.entries :=
  find_eq_some_iff d.nodup

theorem mem_keys_iff {d : Dict K V} {k : K} : k ∈ d.keys ↔ ∃ v, d.get? k = some v := by
  rw [← Option.ne_none_iff_exists', get?, ne_eq, find_eq_none_iff, not_not, keys]

theorem mem_values_iff {d : Dict K V} {v : V} : v ∈ d.values ↔ ∃ k, d.get? k = some v := by
  simp [values, get?_eq_some_iff]

theorem assign_eq_self {k : K} {v : V} {es : List (K × V)} (h : find k es = some v) :
    assign k v es = es := by
  induction es with
  | nil => simp [find] at h
  | cons e es ih =>
    unfold find at h
    unfold assign
    split_ifs at h ⊢ with he
    · cases h
      rw [← he]
    · rw [ih h]

theorem assign_eq_append {k : K} {v : V} {es : List (K × V)} (h : k ∉ es.map Prod.fst) :
    assign k v es = es ++ [(k, v)] := by
  induction es with
  | nil => rfl
  | cons e es ih =>
    rw [List.map_cons, List.mem_cons, not_or] at h
    rw [assign, if_neg (Ne.symm h.1), ih h.2, List.cons_append]

theorem assign_eq_set {k : K} {v : V} {es : List (K × V)} (hes : (es.map Prod.fst).Nodup) {i : ℕ}
    (h : (es.map Prod.fst)[i]? = some k) : assign k v es = es.set i (k, v) := by
  induction es generalizing i with
  | nil => simp at h
  | cons e es ih =>
    obtain ⟨hfresh, hrest⟩ := List.nodup_cons.mp hes
    cases i with
    | zero =>
      rw [List.map_cons, List.getElem?_cons_zero, Option.some.injEq] at h
      rw [assign, if_pos h, List.set_cons_zero]
    | succ i =>
      rw [List.map_cons, List.getElem?_cons_succ] at h
      have hne : e.1 ≠ k := by
        rintro rfl
        exact hfresh (List.mem_of_getElem? h)
      rw [assign, if_neg hne, ih hrest h, List.set_cons_succ]

theorem set_eq_self {d : Dict K V} {k : K} {v : V} (h : d.get? k = some v) : d.set k v = d := by
  cases d
  simp only [set, mk.injEq]
  exact assign_eq_self h

def ofList (es : List (K × V)) : Dict K V := es.foldl (fun d e => d.set e.1 e.2) empty

theorem entries_ofList {es : List (K × V)} (hes : (es.map Prod.fst).Nodup) :
    (ofList es).entries = es := by
  induction es using List.reverseRecOn with
  | nil => rfl
  | append_singleton es e ih =>
    rw [List.map_append, List.map_singleton] at hes
    obtain ⟨hnodup, -, hdisjoint⟩ := List.nodup_append.mp hes
    have hfresh : e.1 ∉ es.map Prod.fst := fun hmem => hdisjoint _ hmem _ (by simp) rfl
    rw [ofList, List.foldl_concat]
    change assign e.1 e.2 (ofList es).entries = es ++ [e]
    rw [ih hnodup, assign_eq_append hfresh]

theorem ofList_entries (d : Dict K V) : ofList d.entries = d := by
  have hentries := entries_ofList d.nodup
  cases hd : ofList d.entries
  cases d
  simp_all

section Comprehension

variable (key : V → K)

/-- `{key(v): v for v in values}`. -/
def byKey (values : List V) : Dict K V := values.foldl (fun d v => d.set (key v) v) empty

theorem byKey_concat (values : List V) (v : V) :
    byKey key (values ++ [v]) = (byKey key values).set (key v) v :=
  List.foldl_concat ..

variable {key}

theorem mem_of_get?_byKey {values : List V} {k : K} {v : V}
    (h : (byKey key values).get? k = some v) : v ∈ values ∧ key v = k := by
  induction values using List.reverseRecOn with
  | nil => cases h
  | append_singleton values w ih =>
    rw [byKey_concat, get?_set] at h
    split_ifs at h with hk
    · cases h
      exact ⟨by simp, hk.symm⟩
    · obtain ⟨hmem, hkey⟩ := ih h
      exact ⟨List.mem_append_left _ hmem, hkey⟩

theorem isSome_get?_byKey_iff {values : List V} {k : K} :
    ((byKey key values).get? k).isSome ↔ ∃ v ∈ values, key v = k := by
  constructor
  · intro h
    obtain ⟨v, hv⟩ := Option.isSome_iff_exists.mp h
    exact ⟨v, mem_of_get?_byKey hv⟩
  · rintro ⟨v, hv, rfl⟩
    induction values using List.reverseRecOn with
    | nil => cases hv
    | append_singleton values w ih =>
      rw [byKey_concat, get?_set]
      split_ifs with hk
      · rfl
      · rcases List.mem_append.mp hv with hv | hv
        · exact ih hv
        · cases List.mem_singleton.mp hv
          exact absurd rfl hk

end Comprehension

theorem keys_perm_of_get?_eq {d e : Dict K V} (h : ∀ k, d.get? k = e.get? k) :
    d.keys.Perm e.keys := by
  rw [List.perm_ext_iff_of_nodup d.nodup_keys e.nodup_keys]
  intro k
  rw [mem_keys_iff, mem_keys_iff, h]

end Dict
