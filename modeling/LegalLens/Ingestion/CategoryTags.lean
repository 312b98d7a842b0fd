import LegalLens.Ingestion.Parser
import LegalLens.Library.Words

/-!
# Category tags

A tag is the words of the lower-cased raw label, joined by underscores. Two questions have
one tag exactly when their labels have the same words.
-/

namespace LegalLens.Ingestion

def labelWords (question : String) : List (List Char) :=
  Words.words isTagChar (Text.lower (rawLabel question))

theorem isTagChar_underscore : isTagChar '_' = false := by decide

theorem toList_normalizeCategory (question : String) :
    (normalizeCategory question).toList = ['_'].intercalate (labelWords question) := by
  rw [normalizeCategory, String.toList_ofList]
  exact Words.strip_replaceRuns isTagChar_underscore _

theorem normalizeCategory_eq_iff (question question' : String) :
    normalizeCategory question = normalizeCategory question' ↔
      labelWords question = labelWords question' :=
  String.ofList_inj.trans (Words.strip_replaceRuns_inj isTagChar_underscore)

theorem eq_empty_or_words (question : String) :
    normalizeCategory question = "" ∨
      ∃ runs : List (List Char), runs ≠ [] ∧
        (∀ run ∈ runs, run ≠ [] ∧ ∀ c ∈ run, isTagChar c = true) ∧
        (normalizeCategory question).toList = ['_'].intercalate runs := by
  by_cases hwords : labelWords question = []
  · left
    apply String.toList_injective
    rw [toList_normalizeCategory, hwords]
    rfl
  · right
    exact ⟨labelWords question, hwords, fun _ => Words.of_mem_words,
      toList_normalizeCategory question⟩

theorem underscores_apart (question : String) :
    (normalizeCategory question).toList.head? ≠ some '_' ∧
      (normalizeCategory question).toList.getLast? ≠ some '_' ∧
      ¬['_', '_'] <:+: (normalizeCategory question).toList := by
  rw [toList_normalizeCategory]
  apply Words.marks_apart_intercalate
  intro run hrun
  obtain ⟨hne, hkeep⟩ := Words.of_mem_words hrun
  exact ⟨hne, fun h => absurd (hkeep '_' h) (by decide)⟩

end LegalLens.Ingestion
