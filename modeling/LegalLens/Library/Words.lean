import LegalLens.Library.Text

/-!
# Maximal runs of a list

The words of a list are its maximal runs of elements with a property. Replacing what lies
between them by one mark, and stripping the mark at both ends, gives the words joined by the
mark, from which they can be read back.
-/

namespace Words

open Text

variable {α : Type*} {keep : α → Bool} {mark : α}

/-- The maximal runs of elements with `keep`, in order. -/
def words (keep : α → Bool) (xs : List α) : List (List α) :=
  (xs.splitOnP fun x => !keep x).filter fun run => !run.isEmpty

/-- A list is one run, or a run with another element and the rest behind it. -/
theorem run_induction (keep : α → Bool) {motive : List α → Prop}
    (run : ∀ run, (∀ x ∈ run, keep x = true) → motive run)
    (more : ∀ run x xs, (∀ x ∈ run, keep x = true) → keep x = false → motive xs →
      motive (run ++ x :: xs)) (xs : List α) : motive xs := by
  induction h : xs.length using Nat.strong_induction_on generalizing xs with
  | _ n ih =>
    have hrun : ∀ x ∈ xs.takeWhile keep, keep x = true := fun _ => List.mem_takeWhile_imp
    have hxs := List.takeWhile_append_dropWhile (p := keep) (l := xs)
    cases hrest : xs.dropWhile keep with
    | nil =>
      rw [hrest, List.append_nil] at hxs
      exact hxs ▸ run _ hrun
    | cons x rest =>
      have hx : keep x = false := by
        have hne : xs.dropWhile keep ≠ [] := by simp [hrest]
        have hhead := List.head_dropWhile_not keep hne
        simpa [hrest] using hhead
      rw [hrest] at hxs
      have hlen : rest.length < n := by
        rw [← h, ← hxs, List.length_append, List.length_cons]
        omega
      exact hxs ▸ more _ x rest hrun hx (ih _ hlen rest rfl)

section Equations

variable {run : List α} (hrun : ∀ x ∈ run, keep x = true)

include hrun

theorem words_run : words keep run = if run = [] then [] else [run] := by
  rw [words, List.splitOnP_eq_singleton fun x hx => by simp [hrun x hx]]
  cases run <;> simp

theorem words_run_cons {x : α} (hx : keep x = false) (xs : List α) :
    words keep (run ++ x :: xs) = if run = [] then words keep xs else run :: words keep xs := by
  rw [words, List.splitOnP_append_cons_of_forall_mem (fun x hx => by simp [hrun x hx]) x
    (by simp [hx])]
  cases run <;> simp [words]

theorem replaceRuns_run_append (xs : List α) :
    replaceRuns keep mark false (run ++ xs) = run ++ replaceRuns keep mark false xs := by
  induction run with
  | nil => rfl
  | cons x run ih =>
    obtain ⟨hx, hrest⟩ := List.forall_mem_cons.mp hrun
    rw [List.cons_append, replaceRuns, if_pos hx, ih hrest, List.cons_append]

theorem replaceRuns_true_append (hne : run ≠ []) (xs : List α) :
    replaceRuns keep mark true (run ++ xs) = run ++ replaceRuns keep mark false xs := by
  cases run with
  | nil => exact absurd rfl hne
  | cons x run =>
    obtain ⟨hx, hrest⟩ := List.forall_mem_cons.mp hrun
    rw [List.cons_append, replaceRuns, if_pos hx, replaceRuns_run_append hrest, List.cons_append]

end Equations

theorem of_mem_words {xs run : List α} (h : run ∈ words keep xs) :
    run ≠ [] ∧ ∀ x ∈ run, keep x = true := by
  induction xs using run_induction keep with
  | run first hfirst =>
    rw [words_run hfirst] at h
    split_ifs at h with hnil
    · simp at h
    · rw [List.mem_singleton.mp h]
      exact ⟨hnil, hfirst⟩
  | more first x xs hfirst hx ih =>
    rw [words_run_cons hfirst hx] at h
    split_ifs at h with hnil
    · exact ih h
    · rcases List.mem_cons.mp h with rfl | h
      · exact ⟨hnil, hfirst⟩
      · exact ih h

theorem intercalate_ne_nil {runs : List (List α)} (hne : runs ≠ [])
    (hruns : ∀ run ∈ runs, run ≠ []) : [mark].intercalate runs ≠ [] := by
  cases runs with
  | nil => exact absurd rfl hne
  | cons run runs =>
    have hrun := hruns run List.mem_cons_self
    cases runs with
    | nil => rwa [List.intercalate_singleton]
    | cons next runs => simp [hrun]

section Mark

variable (hmark : keep mark = false)

include hmark

theorem words_intercalate {runs : List (List α)}
    (hruns : ∀ run ∈ runs, run ≠ [] ∧ ∀ x ∈ run, keep x = true) :
    words keep ([mark].intercalate runs) = runs := by
  induction runs with
  | nil => rfl
  | cons run runs ih =>
    obtain ⟨hne, hrun⟩ := hruns run List.mem_cons_self
    cases runs with
    | nil => rw [List.intercalate_singleton, words_run hrun, if_neg hne]
    | cons next runs =>
      have hrest := ih fun run hmem => hruns run (List.mem_cons_of_mem _ hmem)
      rw [List.intercalate_cons_cons, List.append_assoc, List.singleton_append,
        words_run_cons hrun hmark, if_neg hne, hrest]

theorem ne_mark {x : α} (hx : keep x = true) : x ≠ mark := by
  rintro rfl
  exact Bool.false_ne_true (hmark.symm.trans hx)

variable [DecidableEq α]

theorem dropWhile_replaceRuns (inRun : Bool) (xs : List α) :
    (replaceRuns keep mark inRun xs).dropWhile (· = mark) = replaceRuns keep mark true xs := by
  induction xs generalizing inRun with
  | nil => rfl
  | cons x xs ih =>
    unfold replaceRuns
    by_cases hx : keep x
    · have hne : x ≠ mark := ne_mark hmark hx
      simp [hx, hne]
    · cases inRun with
      | false => simp [hx, ih]
      | true => simp [hx, ih]

theorem rdropWhile_replaceRuns (xs : List α) :
    (replaceRuns keep mark true xs).rdropWhile (· = mark) =
      [mark].intercalate (words keep xs) := by
  have hclean : ∀ {run : List α}, (∀ x ∈ run, keep x = true) →
      ∀ x ∈ run, decide (x = mark) = false :=
    fun hrun x hx => decide_eq_false (ne_mark hmark (hrun x hx))
  induction xs using run_induction keep with
  | run run hrun =>
    rw [words_run hrun]
    by_cases hne : run = []
    · subst hne
      rfl
    · have hreplace : replaceRuns keep mark true (run ++ []) = run ++ [] :=
        replaceRuns_true_append hrun hne []
      have hkept : (run ++ []).rdropWhile (· = mark) = run ++ [] :=
        rdropWhile_append_of_not hne (hclean hrun)
      rw [List.append_nil] at hreplace hkept
      rw [if_neg hne, hreplace, hkept, List.intercalate_singleton]
  | more run x xs hrun hx ih =>
    have hx' : ¬keep x = true := by simp [hx]
    rw [words_run_cons hrun hx]
    by_cases hne : run = []
    · subst hne
      rw [if_pos rfl, List.nil_append, replaceRuns, if_neg hx', if_pos rfl, ih]
    · rw [if_neg hne, replaceRuns_true_append hrun hne, replaceRuns, if_neg hx', if_neg (by simp),
        rdropWhile_append_of_not hne (hclean hrun), rdropWhile_cons, ih]
      by_cases hwords : words keep xs = []
      · simp [hwords]
      · have hjoin : [mark].intercalate (words keep xs) ≠ [] :=
          intercalate_ne_nil hwords fun _ h => (of_mem_words h).1
        rw [if_neg fun h => hjoin h.1, List.intercalate_cons_of_ne_nil hwords, List.append_assoc,
          List.singleton_append]

/-- Replacing and stripping is joining the words. -/
theorem strip_replaceRuns (xs : List α) :
    strip (· = mark) (replaceRuns keep mark false xs) = [mark].intercalate (words keep xs) := by
  rw [strip, dropWhile_replaceRuns hmark, rdropWhile_replaceRuns hmark]

theorem strip_replaceRuns_inj {xs ys : List α} :
    strip (· = mark) (replaceRuns keep mark false xs) =
        strip (· = mark) (replaceRuns keep mark false ys) ↔
      words keep xs = words keep ys := by
  rw [strip_replaceRuns hmark, strip_replaceRuns hmark]
  constructor
  · intro h
    have hread := congrArg (words keep) h
    rwa [words_intercalate hmark fun _ => of_mem_words,
      words_intercalate hmark fun _ => of_mem_words] at hread
  · intro h
    rw [h]

end Mark

/-- In a list whose pieces between marks are not empty, no mark is at an end or next to
another. -/
theorem marks_apart [DecidableEq α] {xs : List α} (h : [] ∉ xs.splitOn mark) :
    xs.head? ≠ some mark ∧ xs.getLast? ≠ some mark ∧ ¬[mark, mark] <:+: xs := by
  have hcons (ys : List α) : (mark :: ys).splitOn mark = [] :: ys.splitOn mark := by
    simp [List.splitOn_cons_eq_if_modifyHead]
  refine ⟨fun hhead => ?_, fun hlast => ?_, fun hinfix => ?_⟩
  · obtain ⟨rest, rfl⟩ := List.head?_eq_some_iff.mp hhead
    simp [hcons] at h
  · obtain ⟨front, rfl⟩ := List.getLast?_eq_some_iff.mp hlast
    simp [List.splitOn_append_cons_self] at h
  · obtain ⟨front, back, rfl⟩ := hinfix
    have hshape : front ++ [mark, mark] ++ back = front ++ mark :: mark :: back := by simp
    rw [hshape, List.splitOn_append_cons_self, hcons] at h
    simp at h

theorem marks_apart_intercalate [DecidableEq α] {runs : List (List α)}
    (hruns : ∀ run ∈ runs, run ≠ [] ∧ mark ∉ run) :
    ([mark].intercalate runs).head? ≠ some mark ∧ ([mark].intercalate runs).getLast? ≠ some mark ∧
      ¬[mark, mark] <:+: [mark].intercalate runs := by
  by_cases hne : runs = []
  · simp [hne]
  · apply marks_apart
    rw [List.splitOn_intercalate mark (fun run h => (hruns run h).2) hne]
    exact fun h => (hruns [] h).1 rfl

end Words
