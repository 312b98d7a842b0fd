import Mathlib.Data.List.Sort
import Mathlib.Tactic

/-!
# Right bisection and clockwise successors

Points of a linear order are arranged on a circle. The clockwise successor of a
position `h` in a set `S` is the least point of `S` strictly beyond `h`, or the
least point of all when none lies beyond. The relation is functional, and it is
monotone: shrinking the set keeps a successor that survives. Two sets that contain
each other's successor therefore agree, which is the geometry behind consistent
hashing. The executable side is right bisection on a sorted list with wrap-around.
-/

namespace ClockwiseSearch

variable {α : Type*} [LinearOrder α]

/-- `p` is the first point of `S` met when leaving `h` clockwise. -/
def IsSuccessor (S : Set α) (h p : α) : Prop :=
  p ∈ S ∧ ((h < p ∧ ∀ q ∈ S, h < q → p ≤ q) ∨ ((∀ q ∈ S, q ≤ h) ∧ ∀ q ∈ S, p ≤ q))

theorem IsSuccessor.unique {S : Set α} {h p q : α}
    (hp : IsSuccessor S h p) (hq : IsSuccessor S h q) : p = q := by
  obtain ⟨hpS, ⟨hp, hpmin⟩ | ⟨hpall, hpmin⟩⟩ := hp <;>
    obtain ⟨hqS, ⟨hq, hqmin⟩ | ⟨hqall, hqmin⟩⟩ := hq
  · exact le_antisymm (hpmin q hqS hq) (hqmin p hpS hp)
  · exact absurd (hqall p hpS) (not_le.mpr hp)
  · exact absurd (hpall q hqS) (not_le.mpr hq)
  · exact le_antisymm (hpmin q hqS) (hqmin p hpS)

theorem IsSuccessor.mono {S T : Set α} {h p : α} (hp : IsSuccessor S h p)
    (hTS : T ⊆ S) (hpT : p ∈ T) : IsSuccessor T h p := by
  obtain ⟨-, ⟨hlt, hmin⟩ | ⟨hall, hmin⟩⟩ := hp
  · exact ⟨hpT, Or.inl ⟨hlt, fun q hq => hmin q (hTS hq)⟩⟩
  · exact ⟨hpT, Or.inr ⟨fun q hq => hall q (hTS hq), fun q hq => hmin q (hTS hq)⟩⟩

/-- Two sets containing each other's successor of `h` have the same successor:
both points are the successor in the intersection. -/
theorem IsSuccessor.eq_of_mem {S T : Set α} {h p q : α}
    (hp : IsSuccessor S h p) (hq : IsSuccessor T h q) (hpT : p ∈ T) (hqS : q ∈ S) : p = q := by
  have hp' : IsSuccessor (S ∩ T) h p := hp.mono Set.inter_subset_left ⟨hp.1, hpT⟩
  have hq' : IsSuccessor (S ∩ T) h q := hq.mono Set.inter_subset_right ⟨hqS, hq.1⟩
  exact hp'.unique hq'

/-- The halving loop on `[lo, hi)`; `fuel` bounds the number of rounds. -/
def bisectLoop (a : List α) (x : α) : ℕ → ℕ → ℕ → ℕ
  | 0, lo, _ => lo
  | fuel + 1, lo, hi =>
    if lo < hi then
      let mid := (lo + hi) / 2
      match a[mid]? with
      | some y => if x < y then bisectLoop a x fuel lo mid else bisectLoop a x fuel (mid + 1) hi
      | none => lo
    else lo

/-- Index after the last entry that is at most `x`. -/
def bisectRight (a : List α) (x : α) : ℕ := bisectLoop a x a.length 0 a.length

/-- Every entry before `r` is at most `x` and every entry from `r` on exceeds it. -/
structure InsertionPoint (a : List α) (x : α) (r : ℕ) : Prop where
  le_length : r ≤ a.length
  before : ∀ i (h : i < a.length), i < r → a[i] ≤ x
  after : ∀ i (h : i < a.length), r ≤ i → x < a[i]

theorem bisectLoop_spec {a : List α} (ha : a.SortedLE) (x : α) :
    ∀ fuel lo hi, lo ≤ hi → hi ≤ a.length → hi - lo ≤ fuel →
      (∀ i (h : i < a.length), i < lo → a[i] ≤ x) →
      (∀ i (h : i < a.length), hi ≤ i → x < a[i]) →
      InsertionPoint a x (bisectLoop a x fuel lo hi) := by
  have hmono := ha.getElem_le_getElem_of_le
  intro fuel
  induction fuel with
  | zero =>
    intro lo hi hle hlen hfuel hbelow habove
    have heq : lo = hi := by omega
    subst heq
    exact ⟨hlen, hbelow, habove⟩
  | succ fuel ih =>
    intro lo hi hle hlen hfuel hbelow habove
    by_cases hlt : lo < hi
    · have hmid : (lo + hi) / 2 < a.length := by omega
      simp only [bisectLoop, if_pos hlt, List.getElem?_eq_getElem hmid]
      split_ifs with hx
      · apply ih lo _ (by omega) (by omega) (by omega) hbelow
        intro i hi' hge
        exact lt_of_lt_of_le hx (hmono hge)
      · apply ih _ hi (by omega) hlen (by omega) _ habove
        intro i hi' hle'
        exact (hmono (by omega : i ≤ (lo + hi) / 2)).trans (not_lt.mp hx)
    · have heq : lo = hi := by omega
      subst heq
      simp only [bisectLoop, if_neg hlt]
      exact ⟨hlen, hbelow, habove⟩

theorem bisectRight_spec {a : List α} (ha : a.SortedLE) (x : α) :
    InsertionPoint a x (bisectRight a x) := by
  apply bisectLoop_spec ha x a.length 0 a.length (Nat.zero_le _) le_rfl (by omega)
  · intro i hi hlt
    omega
  · intro i hi hge
    omega

/-- The insertion point, wrapped to the front when it falls off the end, holds the
clockwise successor. -/
theorem InsertionPoint.isSuccessor {a : List α} (ha : a.SortedLE) {x : α} {r : ℕ}
    (hr : InsertionPoint a x r) (hne : a ≠ []) :
    ∃ h : (if r = a.length then 0 else r) < a.length,
      IsSuccessor {y | y ∈ a} x a[if r = a.length then 0 else r] := by
  have hpos : 0 < a.length := List.length_pos_of_ne_nil hne
  have hmono := ha.getElem_le_getElem_of_le
  have hle := hr.le_length
  by_cases hend : r = a.length
  · simp only [if_pos hend]
    refine ⟨hpos, List.getElem_mem _, Or.inr ⟨?_, ?_⟩⟩
    · intro q hq
      obtain ⟨i, hi, rfl⟩ := List.mem_iff_getElem.mp hq
      exact hr.before i hi (hend ▸ hi)
    · intro q hq
      obtain ⟨i, hi, rfl⟩ := List.mem_iff_getElem.mp hq
      exact hmono (Nat.zero_le i)
  · have hlt : r < a.length := by omega
    simp only [if_neg hend]
    refine ⟨hlt, List.getElem_mem _, Or.inl ⟨hr.after r hlt le_rfl, ?_⟩⟩
    intro q hq hxq
    obtain ⟨i, hi, rfl⟩ := List.mem_iff_getElem.mp hq
    by_cases hir : i < r
    · exact absurd (hr.before i hi hir) (not_le.mpr hxq)
    · exact hmono (not_lt.mp hir)

end ClockwiseSearch
