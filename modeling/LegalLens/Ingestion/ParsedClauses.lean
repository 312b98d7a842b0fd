import LegalLens.Ingestion.Convergence
import LegalLens.Library.FirstOccurrences

/-!
# The clauses of a parsed contract

Clauses are deduplicated by a hash of contract, category and text. Nothing is escaped when
the three are joined, but a contract id has one length and a category no bar, so the joined
string determines the parts, whatever the text contains. Without collisions of the hash a
contract thus holds every pair of category and text of its entry once.
-/

namespace LegalLens.Ingestion

open FirstOccurrences

structure AnnotatedText where
  category : String
  text : String
  answerStart : Option ℤ
  deriving DecidableEq, Repr

def AnnotatedText.pair (a : AnnotatedText) : String × String := (a.category, a.text)

/-- The annotation of an answer, if its text is not blank. -/
def annotation? (question : String) (ans : CuadAnswer) : Option AnnotatedText :=
  let text := stripText (ans.text.getD "")
  if text = "" then none else some ⟨normalizeCategory question, text, ans.answerStart⟩

def annotations (entry : CuadEntry) : List AnnotatedText :=
  entry.paragraphs.flatMap fun paragraph =>
    paragraph.qas.flatMap fun qa => (qa.answers.getD []).filterMap (annotation? qa.question)

def ParsedClause.annotation (c : ParsedClause) : AnnotatedText :=
  ⟨c.category, c.text, c.answerStart⟩

variable {sha1 : String → BitVec 160}

theorem map_annotation_qaClauses (cid : String) (qa : CuadQa) :
    (qaClauses sha1 cid qa).map ParsedClause.annotation =
      (qa.answers.getD []).filterMap (annotation? qa.question) := by
  unfold qaClauses
  rw [List.map_filterMap]
  apply List.filterMap_congr
  intro ans _
  unfold annotation?
  dsimp only
  split_ifs <;> rfl

theorem map_annotation_entryClauses (entry : CuadEntry) :
    (entryClauses sha1 entry).map ParsedClause.annotation = annotations entry := by
  simp only [entryClauses, annotations, List.map_flatMap, map_annotation_qaClauses]

/-- The loop with the ids seen so far. -/
theorem unique_eq (seen : List String) (cs : List ParsedClause) :
    unique seen cs =
      (firsts ParsedClause.clauseId cs).filter fun c => decide (c.clauseId ∉ seen) := by
  induction cs generalizing seen with
  | nil => rfl
  | cons c cs ih =>
    rw [unique, firsts]
    split_ifs with hseen
    · rw [List.filter_cons_of_neg (by simpa using hseen), ih, List.filter_filter]
      apply List.filter_congr
      intro d _
      by_cases hd : d.clauseId ∈ seen
      · simp [hd]
      · have hne : d.clauseId ≠ c.clauseId := by
          intro heq
          exact hd (heq ▸ hseen)
        simp [hd, hne]
    · rw [List.filter_cons_of_pos (by simpa using hseen), ih, List.filter_filter]
      apply congrArg (List.cons c)
      apply List.filter_congr
      intro d _
      simp [Bool.and_comm]

theorem clauseId_eq_iff {entry : CuadEntry}
    (hkeys : ∀ b ∈ entryClauses sha1 entry, ∀ c ∈ entryClauses sha1 entry,
      clauseDigest sha1 (clauseKey b.contractId b.category b.text) =
          clauseDigest sha1 (clauseKey c.contractId c.category c.text) →
        clauseKey b.contractId b.category b.text = clauseKey c.contractId c.category c.text)
    {b c : ParsedClause} (hb : b ∈ entryClauses sha1 entry) (hc : c ∈ entryClauses sha1 entry) :
    b.clauseId = c.clauseId ↔ b.annotation.pair = c.annotation.pair := by
  obtain ⟨hbcid, hbid, hbbar⟩ := mem_entryClauses hb
  obtain ⟨hccid, hcid, hcbar⟩ := mem_entryClauses hc
  have hsame : b.contractId = c.contractId := hbcid.trans hccid.symm
  constructor
  · intro h
    rw [hbid, hcid, hsame] at h
    obtain ⟨-, hdigest⟩ := clauseId_inj rfl h
    have hkey := hkeys b hb c hc (hsame ▸ hdigest)
    rw [hsame] at hkey
    obtain ⟨hcategory, htext⟩ := clauseKey_inj hbbar hcbar hkey
    exact Prod.ext hcategory htext
  · intro h
    obtain ⟨hcategory, htext⟩ := Prod.mk.inj h
    change b.category = c.category at hcategory
    change b.text = c.text at htext
    rw [hbid, hcid, hsame, hcategory, htext]

theorem map_annotation_parseEntry {entry : CuadEntry}
    (hkeys : ∀ b ∈ entryClauses sha1 entry, ∀ c ∈ entryClauses sha1 entry,
      clauseDigest sha1 (clauseKey b.contractId b.category b.text) =
          clauseDigest sha1 (clauseKey c.contractId c.category c.text) →
        clauseKey b.contractId b.category b.text = clauseKey c.contractId c.category c.text) :
    (parseEntry sha1 entry).clauses.map ParsedClause.annotation =
      firsts AnnotatedText.pair (annotations entry) := by
  have hids : firsts ParsedClause.clauseId (entryClauses sha1 entry) =
      firsts (AnnotatedText.pair ∘ ParsedClause.annotation) (entryClauses sha1 entry) :=
    firsts_congr fun b hb c hc => clauseId_eq_iff hkeys hb hc
  have hclauses : (parseEntry sha1 entry).clauses =
      firsts (AnnotatedText.pair ∘ ParsedClause.annotation) (entryClauses sha1 entry) := by
    rw [parseEntry, unique_eq, ← hids]
    simp
  rw [hclauses, map_firsts, map_annotation_entryClauses]

/-- If truncated SHA-1 does not collide on the strings that are hashed, then parsing yields
one contract for each entry, in order, and its clauses are the annotations of the entry
that are the first with their category and text. No pair is lost and none is repeated. -/
theorem parseCuad_exact (sha1 : String → BitVec 160) (raw : CuadDocument)
    (hsha1 : ∀ k ∈ hashedKeys sha1 raw, ∀ k' ∈ hashedKeys sha1 raw,
      clauseDigest sha1 k = clauseDigest sha1 k' → k = k') :
    List.Forall₂ (fun (entry : CuadEntry) (parsed : ParsedContract) =>
        parsed.filename = entry.title ∧
          parsed.clauses.map ParsedClause.annotation =
            firsts AnnotatedText.pair (annotations entry) ∧
          (parsed.clauses.map fun c => (c.category, c.text)).Nodup ∧
          (∀ a ∈ annotations entry, ∃ c ∈ parsed.clauses,
            c.category = a.category ∧ c.text = a.text) ∧
          ∀ c ∈ parsed.clauses, ∃ before after,
            annotations entry = before ++ c.annotation :: after ∧
              (c.category, c.text) ∉ before.map AnnotatedText.pair)
      raw.data (parseCuad sha1 raw) := by
  rw [parseCuad, List.forall₂_map_right_iff, List.forall₂_same]
  intro entry hentry
  have hannotations : (parseEntry sha1 entry).clauses.map ParsedClause.annotation =
      firsts AnnotatedText.pair (annotations entry) := by
    apply map_annotation_parseEntry
    intro b hb c hc
    apply hsha1
    · exact List.mem_flatMap.mpr ⟨entry, hentry, List.mem_map_of_mem hb⟩
    · exact List.mem_flatMap.mpr ⟨entry, hentry, List.mem_map_of_mem hc⟩
  have hpairs : (parseEntry sha1 entry).clauses.map (fun c => (c.category, c.text)) =
      (firsts AnnotatedText.pair (annotations entry)).map AnnotatedText.pair := by
    rw [← hannotations, List.map_map]
    rfl
  refine ⟨rfl, hannotations, ?_, ?_, ?_⟩
  · rw [hpairs]
    exact nodup_map_firsts _ _
  · intro a ha
    obtain ⟨b, hb, heq⟩ := exists_mem_firsts AnnotatedText.pair ha
    rw [← hannotations] at hb
    obtain ⟨c, hc, rfl⟩ := List.mem_map.mp hb
    obtain ⟨hcategory, htext⟩ := Prod.mk.inj heq
    exact ⟨c, hc, hcategory, htext⟩
  · intro c hc
    apply exists_prefix_of_mem_firsts AnnotatedText.pair
    rw [← hannotations]
    exact List.mem_map_of_mem hc

/-- A repeated span, a blank one and one with a bar. -/
def repeatingEntry : CuadEntry :=
  ⟨"Supply Agreement.pdf", [⟨[⟨"Clauses related to \"Parties\"",
    some [⟨some "Acme", some 7⟩, ⟨some " Zeta | Co. ", some 20⟩, ⟨some "Acme ", some 30⟩,
      ⟨some "  ", some 38⟩]⟩, sampleQa "Governing Law" "Delaware"]⟩]⟩

theorem parseCuad_exact_repeating :
    (parseCuad sampleSha1 ⟨[repeatingEntry]⟩).map (fun parsed =>
        parsed.clauses.map ParsedClause.annotation) =
      [[⟨"parties", "Acme", some 7⟩, ⟨"parties", "Zeta | Co.", some 20⟩,
        ⟨"governing_law", "Delaware", some 7⟩]] := by
  have h := parseCuad_exact sampleSha1 ⟨[repeatingEntry]⟩ (by decide +kernel)
  obtain ⟨-, hclauses, -⟩ := (List.forall₂_cons.mp h).1
  have hfirsts : firsts AnnotatedText.pair (annotations repeatingEntry) =
      [⟨"parties", "Acme", some 7⟩, ⟨"parties", "Zeta | Co.", some 20⟩,
        ⟨"governing_law", "Delaware", some 7⟩] := by
    decide +kernel
  rw [hfirsts] at hclauses
  exact congrArg (fun cs => [cs]) hclauses

end LegalLens.Ingestion
