import Mathlib.Tactic

/-!
# Maps written key by key

A store is a partial map. Writing a list of key-value pairs, the last pair of a key wins;
what can be read afterwards is described by membership.
-/

namespace KeyedWrites

variable {K V : Type*} [DecidableEq K]

theorem update_eq_some_iff {store : K → Option V} {k k' : K} {v v' : V} :
    Function.update store k (some v) k' = some v' ↔
      k' = k ∧ v = v' ∨ k' ≠ k ∧ store k' = some v' := by
  rw [Function.update_apply]
  by_cases h : k' = k <;> simp [h]

theorem update_none_eq_some_iff {store : K → Option V} {k k' : K} {v : V} :
    Function.update store k none k' = some v ↔ k' ≠ k ∧ store k' = some v := by
  rw [Function.update_apply]
  by_cases h : k' = k <;> simp [h]

theorem isSome_update_iff {store : K → Option V} {k k' : K} {v : V} :
    (Function.update store k (some v) k').isSome ↔ k' = k ∨ (store k').isSome := by
  rw [Function.update_apply]
  by_cases hk : k' = k <;> simp [hk]

def writeAll (store : K → Option V) (ws : List (K × V)) : K → Option V :=
  ws.foldl (fun s w => Function.update s w.1 (some w.2)) store

theorem writeAll_concat (store : K → Option V) (ws : List (K × V)) (w : K × V) :
    writeAll store (ws ++ [w]) = Function.update (writeAll store ws) w.1 (some w.2) :=
  List.foldl_concat ..

theorem writeAll_eq_some {store : K → Option V} {ws : List (K × V)} {k : K} {v : V}
    (h : writeAll store ws k = some v) : store k = some v ∨ (k, v) ∈ ws := by
  induction ws using List.reverseRecOn with
  | nil => exact Or.inl h
  | append_singleton ws w ih =>
    rw [writeAll_concat, update_eq_some_iff] at h
    rcases h with ⟨rfl, rfl⟩ | ⟨-, h⟩
    · exact Or.inr (by simp)
    · exact (ih h).imp_right (List.mem_append_left _)

theorem isSome_writeAll_iff {store : K → Option V} {ws : List (K × V)} {k : K} :
    (writeAll store ws k).isSome ↔ (store k).isSome ∨ k ∈ ws.map Prod.fst := by
  induction ws using List.reverseRecOn with
  | nil => simp [writeAll]
  | append_singleton ws w ih =>
    rw [writeAll_concat, isSome_update_iff, ih, List.map_append, List.mem_append,
      List.map_singleton, List.mem_singleton]
    tauto

/-- Two stores agree at a key, up to `f`, if both or neither of them hold it and the values
that they hold agree. -/
theorem map_eq_map {W : Type*} {f : V → W} {o o' : Option V} (h : o.isSome → o'.isSome)
    (h' : o'.isSome → o.isSome) (hval : ∀ v v', o = some v → o' = some v' → f v = f v') :
    o.map f = o'.map f := by
  cases o with
  | none =>
    cases o' with
    | none => rfl
    | some v' => simp at h'
  | some v =>
    cases o' with
    | none => simp at h
    | some v' => exact congrArg some (hval v v' rfl rfl)

end KeyedWrites
