import Mathlib.Data.List.Basic
import Mathlib.Tactic

/-!
# Slices of one width

The starts of a range with a step, and the slices of a list that begin there: they cover the
list in order, and none is empty or too long.
-/

namespace Slices

variable {α : Type*} {step : ℕ}

/-- `range(start, stop, step)` for a positive step. -/
def starts (start stop step : ℕ) : List ℕ :=
  List.range' start ((stop - start + step - 1) / step) step

/-- `xs[i : i + n]`. -/
def slice (xs : List α) (i n : ℕ) : List α := (xs.drop i).take n

section Starts

variable (hstep : 0 < step) {start stop : ℕ}

include hstep

theorem starts_of_le (h : stop ≤ start) : starts start stop step = [] := by
  have hcount : (stop - start + step - 1) / step = 0 := Nat.div_eq_of_lt (by omega)
  rw [starts, hcount, List.range'_zero]

theorem starts_of_lt (h : start < stop) :
    starts start stop step = start :: starts (start + step) stop step := by
  have hcount : (stop - start + step - 1) / step =
      (stop - (start + step) + step - 1) / step + 1 := by
    by_cases hlast : stop ≤ start + step
    · have hone : stop - start + step - 1 = (stop - start - 1) + step := by omega
      have hzero : stop - (start + step) + step - 1 = step - 1 := by omega
      rw [hone, hzero, Nat.add_div_right _ hstep, Nat.div_eq_of_lt (by omega : step - 1 < step),
        Nat.div_eq_of_lt (by omega)]
    · have hsplit : stop - start + step - 1 = (stop - (start + step) + step - 1) + step := by omega
      rw [hsplit, Nat.add_div_right _ hstep]
  rw [starts, hcount, List.range'_succ, starts]

theorem lt_of_mem_starts {i : ℕ} (h : i ∈ starts start stop step) : i < stop := by
  induction hleft : stop - start using Nat.strong_induction_on generalizing start with
  | _ left ih =>
    by_cases hlt : start < stop
    · rw [starts_of_lt hstep hlt] at h
      rcases List.mem_cons.mp h with rfl | h
      · exact hlt
      · exact ih (stop - (start + step)) (by omega) h rfl
    · rw [starts_of_le hstep (by omega)] at h
      simp at h

/-- From a start on, the slices are what is left of the list. -/
theorem flatten_slices (xs : List α) :
    ((starts start xs.length step).map fun i => slice xs i step).flatten = xs.drop start := by
  induction hleft : xs.length - start using Nat.strong_induction_on generalizing start with
  | _ left ih =>
    by_cases hlt : start < xs.length
    · have hrest := ih (xs.length - (start + step)) (by omega) rfl
      rw [starts_of_lt hstep hlt, List.map_cons, List.flatten_cons, hrest, slice, ← List.drop_drop,
        List.take_append_drop]
    · rw [starts_of_le hstep (by omega), List.drop_eq_nil_of_le (by omega)]
      rfl

end Starts

theorem length_slice_le (xs : List α) (i n : ℕ) : (slice xs i n).length ≤ n :=
  List.length_take_le _ _

theorem slice_ne_nil {xs : List α} {i n : ℕ} (hi : i < xs.length) (hn : 0 < n) :
    slice xs i n ≠ [] := by
  apply List.ne_nil_of_length_pos
  rw [slice, List.length_take, List.length_drop]
  omega

end Slices
