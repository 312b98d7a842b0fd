import LegalLens.Workers.Routing
import Mathlib.Tactic

/-!
# How many keys move

A key moves when a worker leaves exactly if it was owned by that worker, and it moves back
when the worker returns. So the keys that move when one of `N` workers leaves are `K / N` on
average over the workers, and a sequence of absences moves a key twice for each absence of
its owner, whatever happens to the other workers in between.
-/

namespace LegalLens.Workers.ConsistentHashRing

variable {hash : String → ℕ} {n : ℤ}

/-- Without one of its workers, the ring answers differently exactly on the keys of the
worker. -/
theorem moved_iff_owned (hn : 1 ≤ n) {ops ops' : List Op}
    (hinj : InjectiveOnLabels hash n (mentioned ops ++ mentioned ops')) {w : String}
    (hlive : live ops' = (live ops).erase w) (key : String) :
    (run hash n ops').getWorker hash key ≠ (run hash n ops).getWorker hash key ↔
      (run hash n ops).getWorker hash key = .ok (some w) := by
  have hinj' := hinj.mono (List.append_subset.mpr
    ⟨List.subset_append_right (mentioned ops) _, List.subset_append_left _ _⟩)
  constructor
  · intro hne
    obtain ⟨v, hv, hnew, hget⟩ :=
      moved_to_new hn hinj' (hlive ▸ Finset.erase_subset w (live ops)) hne.symm
    have hvw : v = w := by
      by_contra hvw
      exact hnew (hlive ▸ Finset.mem_erase.mpr ⟨hvw, hv⟩)
    rwa [hvw] at hget
  · intro howner heq
    rw [howner] at heq
    rcases getWorker_run_cases hn (hinj.mono (List.subset_append_right _ _)) key with
      ⟨-, hnone⟩ | ⟨v, hv, hget⟩
    · rw [hnone] at heq
      cases heq
    · rw [hget] at heq
      cases heq
      rw [hlive] at hv
      exact absurd rfl (Finset.ne_of_mem_erase hv)

def movedKeys (r s : ConsistentHashRing) (hash : String → ℕ) (keys : Finset String) :
    Finset String :=
  keys.filter fun key => r.getWorker hash key ≠ s.getWorker hash key

/-- Take any ring with some workers and, for each of them, any ring that lacks just this one.
Over the workers, the numbers of keys that differ between the two rings add up to the number
of all keys. So when one of `N` workers leaves or joins, `K / N` of `K` keys move on average. -/
theorem sum_movedKeys (hash : String → ℕ) (n : ℤ) (hn : 1 ≤ n) (ops : List Op)
    (without : String → List Op)
    (hinj : ∀ w ∈ live ops, InjectiveOnLabels hash n (mentioned ops ++ mentioned (without w)))
    (hwithout : ∀ w ∈ live ops, live (without w) = (live ops).erase w)
    (hne : (live ops).Nonempty) (keys : Finset String) :
    ∑ w ∈ live ops, (movedKeys (run hash n (without w)) (run hash n ops) hash keys).card =
      keys.card := by
  have hone : ∀ key, ∑ w ∈ live ops,
      (if (run hash n (without w)).getWorker hash key ≠ (run hash n ops).getWorker hash key then 1
        else 0) = 1 := by
    intro key
    obtain ⟨v, hv⟩ := hne
    rcases getWorker_run_cases hn ((hinj v hv).mono (List.subset_append_left _ _)) key with
      ⟨hempty, -⟩ | ⟨o, ho, howner⟩
    · simp [hempty] at hv
    · have hmoved : ∀ w ∈ live ops,
          ((run hash n (without w)).getWorker hash key ≠ (run hash n ops).getWorker hash key ↔
            o = w) := by
        intro w hw
        rw [moved_iff_owned hn (hinj w hw) (hwithout w hw), howner]
        simp
      rw [Finset.sum_congr rfl fun w hw => if_congr (hmoved w hw) rfl rfl, Finset.sum_ite_eq,
        if_pos ho]
  simp only [movedKeys, Finset.card_filter]
  rw [Finset.sum_comm, Finset.sum_congr rfl fun key _ => hone key, ← Finset.card_eq_sum_ones]

/-- Each of three workers leaves. -/
theorem sum_movedKeys_three :
    let ops : List Op := [.replace ["a", "b", "c"]]
    let keys : Finset String := {"k1", "b#5", "c1", "z"}
    ∑ w ∈ live ops, (movedKeys (run labelValue 2 (ops ++ [.remove w])) (run labelValue 2 ops)
      labelValue keys).card = keys.card := by
  intro ops keys
  have hinj : ∀ w ∈ live ops,
      InjectiveOnLabels labelValue 2 (mentioned ops ++ mentioned (ops ++ [.remove w])) := by
    decide +kernel
  have hwithout : ∀ w ∈ live ops, live (ops ++ [.remove w]) = (live ops).erase w :=
    fun w _ => live_concat ops (.remove w)
  exact sum_movedKeys labelValue 2 (by decide) ops _ hinj hwithout ⟨"a", by decide⟩ keys

/-- The number of times that the answer for a key changes along some more operations. -/
def moves (hash : String → ℕ) (n : ℤ) (key : String) : List Op → List Op → ℕ
  | _, [] => 0
  | ops, op :: more =>
    (if (run hash n (ops ++ [op])).getWorker hash key = (run hash n ops).getWorker hash key then 0
      else 1) + moves hash n key (ops ++ [op]) more

/-- Each worker of a list is absent for a while, one after the other. -/
def absences (ws : List String) : List Op := ws.flatMap fun w => [.remove w, .add w]

theorem live_remove_add {ops : List Op} {w : String} (hw : w ∈ live ops) :
    live (ops ++ [.remove w] ++ [.add w]) = live ops := by
  rw [live_concat, live_concat]
  exact Finset.insert_erase hw

theorem mentioned_concat_subset {ops : List Op} {op : Op} (h : op.ids ⊆ mentioned ops) :
    mentioned (ops ++ [op]) ⊆ mentioned ops := by
  rw [mentioned_append]
  exact List.append_subset.mpr ⟨List.Subset.refl _, by simpa [mentioned] using h⟩

/-- Along any sequence of absences a key moves away and back for each absence of its owner, and
it stays for the absences of all other workers. In particular every key moves exactly twice
when each worker is absent once. -/
theorem moves_absences (hash : String → ℕ) (n : ℤ) (hn : 1 ≤ n) (ops : List Op)
    (ws : List String) (hws : ∀ w ∈ ws, w ∈ live ops)
    (hinj : InjectiveOnLabels hash n (mentioned ops)) {key o : String}
    (howner : (run hash n ops).getWorker hash key = .ok (some o)) :
    moves hash n key ops (absences ws) = 2 * ws.count o ∧
      (run hash n (ops ++ absences ws)).getWorker hash key = .ok (some o) := by
  induction ws generalizing ops with
  | nil => simpa [absences, moves] using howner
  | cons w ws ih =>
    have hw : w ∈ live ops := hws w List.mem_cons_self
    have hmentioned : ∀ v ∈ [w], v ∈ mentioned ops := by
      intro v hv
      rw [List.mem_singleton.mp hv]
      exact live_subset_mentioned ops w hw
    -- without the worker, and with it again
    let left := ops ++ [.remove w]
    let back := left ++ [.add w]
    have hleft : mentioned left ⊆ mentioned ops := mentioned_concat_subset hmentioned
    have hsub : mentioned back ⊆ mentioned ops := by
      have hw' : ∀ v ∈ [w], v ∈ mentioned left := by
        intro v hv
        rw [mentioned_append]
        exact List.mem_append_left _ (hmentioned v hv)
      exact List.Subset.trans (mentioned_concat_subset hw') hleft
    have hback : live back = live ops := live_remove_add hw
    have hreturn : (run hash n back).getWorker hash key = (run hash n ops).getWorker hash key :=
      (sameRing_of_live_eq hinj (hinj.mono hsub) hback).2 key
    have hmoved : (run hash n left).getWorker hash key = (run hash n ops).getWorker hash key ↔
        w ≠ o := by
      have hinjLeft := hinj.mono (List.append_subset.mpr ⟨List.Subset.refl _, hleft⟩)
      rw [← not_iff_not, ← ne_eq, moved_iff_owned hn hinjLeft (live_concat ops (.remove w)),
        howner, not_not]
      simp [eq_comm]
    obtain ⟨hrest, hend⟩ := ih back (fun v hv => hback ▸ hws v (List.mem_cons_of_mem w hv))
      (hinj.mono hsub) (hreturn.trans howner)
    have hsplit : absences (w :: ws) = .remove w :: .add w :: absences ws := rfl
    rw [hsplit]
    constructor
    · simp only [moves]
      rw [hrest, hreturn, List.count_cons]
      by_cases hwo : w = o
      · rw [if_neg fun h => hmoved.mp h hwo, if_neg fun h => hmoved.mp h.symm hwo]
        simp only [hwo, beq_self_eq_true, if_true]
        omega
      · rw [if_pos (hmoved.mpr hwo), if_pos (hmoved.mpr hwo).symm]
        simp [hwo]
    · simpa [left, back] using hend

/-- The key of a worker moves twice while each of three workers is absent once. -/
theorem moves_absences_three :
    moves labelValue 2 "k1" [.replace ["a", "b", "c"]] (absences ["b", "a", "c"]) =
      2 * ["b", "a", "c"].count "a" :=
  (moves_absences labelValue 2 (by decide) [.replace ["a", "b", "c"]] ["b", "a", "c"] (by decide)
    (by decide +kernel) (by decide +kernel)).1

end LegalLens.Workers.ConsistentHashRing
