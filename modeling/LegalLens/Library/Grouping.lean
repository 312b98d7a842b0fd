import LegalLens.Library.Dict

/-!
# Grouping by a key

A list of key-value pairs is grouped in a dictionary of lists by appending every value to
the list of its key. The list of a key then holds the values of that key in order, and all
lists together hold every value as often as it was given.
-/

namespace Grouping

variable {K V : Type*} [DecidableEq K]

/-- `groups.setdefault(k, []).append(v)`. -/
def append (groups : Dict K (List V)) (k : K) (v : V) : Dict K (List V) :=
  groups.set k ((groups.get? k).getD [] ++ [v])

def group (pairs : List (K × V)) : Dict K (List V) :=
  pairs.foldl (fun groups pair => append groups pair.1 pair.2) Dict.empty

def members (k : K) (pairs : List (K × V)) : List V :=
  (pairs.filter fun pair => pair.1 = k).map Prod.snd

theorem group_concat (pairs : List (K × V)) (pair : K × V) :
    group (pairs ++ [pair]) = append (group pairs) pair.1 pair.2 :=
  List.foldl_concat ..

theorem members_concat (k : K) (pairs : List (K × V)) (pair : K × V) :
    members k (pairs ++ [pair]) = members k pairs ++ if pair.1 = k then [pair.2] else [] := by
  unfold members
  rw [List.filter_append, List.map_append]
  by_cases h : pair.1 = k <;> simp [h]

theorem members_ne_nil_iff {k : K} {pairs : List (K × V)} :
    members k pairs ≠ [] ↔ k ∈ pairs.map Prod.fst := by
  simp [members, List.filter_eq_nil_iff]

theorem get?_group (pairs : List (K × V)) (k : K) :
    (group pairs).get? k = if members k pairs = [] then none else some (members k pairs) := by
  induction pairs using List.reverseRecOn with
  | nil => rfl
  | append_singleton pairs pair ih =>
    rw [group_concat, append, Dict.get?_set, members_concat]
    by_cases h : k = pair.1
    · subst h
      rw [if_pos rfl, if_pos rfl, if_neg (by simp), ih]
      split_ifs with hnil
      · rw [Option.getD_none, hnil]
      · rw [Option.getD_some]
    · rw [if_neg h, if_neg (Ne.symm h), List.append_nil, ih]

theorem perm_flatten_assign (k : K) (v : V) (es : List (K × List V)) :
    ((Dict.assign k ((Dict.find k es).getD [] ++ [v]) es).map Prod.snd).flatten.Perm
      ((es.map Prod.snd).flatten ++ [v]) := by
  induction es with
  | nil => exact List.Perm.refl [v]
  | cons e es ih =>
    by_cases h : e.1 = k
    · simp only [Dict.assign, Dict.find, h, if_true, Option.getD_some, List.map_cons,
        List.flatten_cons, List.append_assoc]
      exact List.perm_append_comm.append_left e.2
    · simp only [Dict.assign, Dict.find, h, if_false, List.map_cons, List.flatten_cons,
        List.append_assoc]
      exact ih.append_left e.2

/-- Grouping loses and duplicates nothing. -/
theorem perm_flatten_values_group (pairs : List (K × V)) :
    (group pairs).values.flatten.Perm (pairs.map Prod.snd) := by
  induction pairs using List.reverseRecOn with
  | nil => exact List.Perm.refl []
  | append_singleton pairs pair ih =>
    rw [group_concat, List.map_append]
    exact (perm_flatten_assign pair.1 pair.2 (group pairs).entries).trans (ih.append_right _)

end Grouping
