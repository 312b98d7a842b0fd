import LegalLens.Ingestion.Deployment
import LegalLens.Ingestion.IngestDriver
import LegalLens.Ingestion.ParsedClauses

/-!
# Clauses of one category

`extract_clauses` selects the rows of a contract with a category, ordered by clause id. When
the calls of the driver have been carried out by the cluster, its results are the spans that
the documents annotate: the text of an annotation is found in the row of the clause that was
hashed for it, whichever worker inserted the row and however often.
-/

namespace LegalLens.Retrieval

open Ingestion Orchestration

variable {β τ ε : Type*}

/-- A row of `SELECT clause_id, text, page, risk_level, risk_rationale FROM clauses`. -/
structure ExtractedClause where
  clauseId : String
  text : String
  page : Option ℤ
  riskLevel : Option String
  riskRationale : Option String
  deriving DecidableEq

/-- What the query shows of a row of the table. No statement of the program writes a page. -/
def shown (clauseId : String) (row : ClauseRow τ) : ExtractedClause :=
  ⟨clauseId, row.text, none, row.riskLevel, row.riskRationale⟩

/-- The list is a result of the query with `WHERE contract_id = :cid AND category = :cat` and
`ORDER BY clause_id`, in the order that the collation of the database puts strings in. -/
structure Extracts (le : String → String → Prop) (s : Stores β τ) (contractId category : String)
    (rows : List ExtractedClause) : Prop where
  ordered : rows.Pairwise fun c d => le c.clauseId d.clauseId
  nodup : rows.Nodup
  mem_iff : ∀ c, c ∈ rows ↔ ∃ row, s.clauses (contractId, c.clauseId) = some row ∧
    row.category = category ∧ c = shown c.clauseId row

structure ExtractResult where
  clauses : List ExtractedClause
  count : ℕ

/-- `extract_clauses` for the rows that the query yields. -/
def extractClauses (rows : List ExtractedClause) : ExtractResult := ⟨rows, rows.length⟩

section Rows

variable {sha1 : String → BitVec 160} {embed : String → List β} {tasks : List IngestTask}
  {s : Stores β τ} {le : String → String → Prop} {contractId category : String}
  {rows : List ExtractedClause}

theorem mem_rows_of_sound (hs : s.Sound embed tasks)
    (hrows : Extracts le s contractId category rows) {c : ExtractedClause} (hc : c ∈ rows) :
    ∃ t ∈ tasks, ∃ parsed ∈ t.payload.clauses, t.payload.contractId = contractId ∧
      parsed.category = category ∧ c = ⟨parsed.clauseId, parsed.text, none, none, none⟩ := by
  obtain ⟨row, hrow, hcategory, hshown⟩ := (hrows.mem_iff c).mp hc
  obtain ⟨t, ht, parsed, hparsed, hkey, hcontent⟩ := hs.clauses _ row hrow
  obtain ⟨hcid, hid⟩ := Prod.mk.inj hkey
  simp only [ClauseRow.withoutTime, ClauseRow.mk.injEq] at hcontent
  obtain ⟨hrowCategory, htext, hlevel, hrationale, -, -⟩ := hcontent
  refine ⟨t, ht, parsed, hparsed, hcid.symm, hrowCategory.symm.trans hcategory, ?_⟩
  rw [hshown, shown, hid, htext, hlevel, hrationale]

theorem mem_rows_of_has (hkeys : KeyDetermined tasks) (hs : s.Sound embed tasks)
    {t : IngestTask} (ht : t ∈ tasks) (hhas : s.Has t) {parsed : ParsedClause}
    (hparsed : parsed ∈ t.payload.clauses)
    (hrows : Extracts le s t.payload.contractId parsed.category rows) :
    ⟨parsed.clauseId, parsed.text, none, none, none⟩ ∈ rows := by
  obtain ⟨row, hrow⟩ := Option.isSome_iff_exists.mp (hhas.2.2 parsed hparsed)
  obtain ⟨u, hu, other, hother, hkey, hcontent⟩ := hs.clauses _ row hrow
  obtain ⟨-, hid⟩ := Prod.mk.inj hkey
  obtain ⟨-, hcategory, htext⟩ := hkeys.clause t ht parsed hparsed u hu other hother hid
  simp only [ClauseRow.withoutTime, ClauseRow.mk.injEq] at hcontent
  obtain ⟨hrowCategory, hrowText, hlevel, hrationale, -, -⟩ := hcontent
  refine (hrows.mem_iff _).mpr ⟨row, hrow, hrowCategory.trans hcategory.symm, ?_⟩
  rw [shown, hrowText, hlevel, hrationale, htext]

theorem extracts_of_sound (hs : s.Sound embed tasks)
    (hordered : rows.Pairwise fun c d => le c.clauseId d.clauseId) (hnodup : rows.Nodup)
    (hstored : ∀ c ∈ rows, ∃ row, s.clauses (contractId, c.clauseId) = some row ∧
      row.category = category ∧ c = shown c.clauseId row)
    (hall : ∀ t ∈ tasks, t.payload.contractId = contractId → ∀ parsed ∈ t.payload.clauses,
      parsed.category = category → parsed.clauseId ∈ rows.map ExtractedClause.clauseId) :
    Extracts le s contractId category rows := by
  refine ⟨hordered, hnodup, fun c => ⟨hstored c, ?_⟩⟩
  rintro ⟨row, hrow, hcategory, hshown⟩
  obtain ⟨t, ht, parsed, hparsed, hkey, hcontent⟩ := hs.clauses _ row hrow
  obtain ⟨hcid, hid⟩ := Prod.mk.inj hkey
  have hparsedCategory : parsed.category = category :=
    (congrArg ClauseRow.category hcontent).symm.trans hcategory
  obtain ⟨d, hd, hdc⟩ := List.mem_map.mp (hall t ht hcid.symm parsed hparsed hparsedCategory)
  have hsame : d.clauseId = c.clauseId := hdc.trans hid.symm
  obtain ⟨row', hrow', -, hshown'⟩ := hstored d hd
  rw [hsame, hrow] at hrow'
  cases hrow'
  rw [hshown, ← hsame, ← hshown']
  exact hd

end Rows

/-- The clauses of a parsed entry are its annotations, if their ids do not collide. -/
theorem exists_clause_iff {sha1 : String → BitVec 160} {docs : List CuadDocument}
    (hsha1 : InjectiveOnHashed sha1 docs) {doc : CuadDocument} (hdoc : doc ∈ docs)
    {entry : CuadEntry} (hentry : entry ∈ doc.data) (category text : String) :
    (∃ c ∈ (parseEntry sha1 entry).clauses, c.category = category ∧ c.text = text) ↔
      ∃ a ∈ annotations entry, a.category = category ∧ a.text = text := by
  have hhashed : ∀ c ∈ entryClauses sha1 entry,
      clauseKey c.contractId c.category c.text ∈ docs.flatMap (hashedKeys sha1) := by
    intro c hc
    exact List.mem_flatMap.mpr
      ⟨doc, hdoc, List.mem_flatMap.mpr ⟨entry, hentry, List.mem_map_of_mem hc⟩⟩
  have hannotations : (parseEntry sha1 entry).clauses.map ParsedClause.annotation =
      FirstOccurrences.firsts AnnotatedText.pair (annotations entry) := by
    apply map_annotation_parseEntry
    intro b hb c hc
    exact hsha1.keys _ (hhashed b hb) _ (hhashed c hc)
  constructor
  · rintro ⟨c, hc, hcategory, htext⟩
    refine ⟨c.annotation, ?_, hcategory, htext⟩
    apply (FirstOccurrences.sublist_firsts AnnotatedText.pair _).subset
    rw [← hannotations]
    exact List.mem_map_of_mem hc
  · rintro ⟨a, ha, hcategory, htext⟩
    obtain ⟨b, hb, heq⟩ := FirstOccurrences.exists_mem_firsts AnnotatedText.pair ha
    rw [← hannotations] at hb
    obtain ⟨c, hc, rfl⟩ := List.mem_map.mp hb
    obtain ⟨hc1, hc2⟩ := Prod.mk.inj heq
    exact ⟨c, hc, hc1.trans hcategory, hc2.trans htext⟩

section Driven

open IngestDriver

variable {hash : String → ℕ} {dump : IngestTask → ε} {load : ε → Option IngestTask}
  {embed : String → List β} {sha1 : String → BitVec 160} {docs : List CuadDocument}
  {calls : ℕ → Option Call} {acts : List (DeploymentAction τ)} {s : Deployment β τ ε}

theorem entry_mem_of_takes (hdocs : ∀ d call, calls d = some call → call.raw ∈ docs)
    {entry : CuadEntry} (h : Takes calls entry) : ∃ doc ∈ docs, entry ∈ doc.data := by
  obtain ⟨d, call, hcall, hentry⟩ := h
  exact ⟨call.raw, hdocs d call hcall, mem_of_mem_selected hentry⟩

/-- The tasks sent in a run of drivers are those of the entries that the drivers take. -/
theorem mem_ingestTasks_iff
    (hdriven : DrivenBy sha1 calls (acts.filterMap DeploymentAction.cluster?))
    (hrun : Runs.run (Deployment.step hash dump load embed) .start acts = some s)
    (task : IngestTask) :
    task ∈ s.ingestTasks ↔
      ∃ entry, Takes calls entry ∧ task = ingestTask (parseEntry sha1 entry) := by
  have hcluster := Deployment.cluster_run hrun
  rw [Deployment.mem_ingestTasks]
  constructor
  · rintro ⟨-, sent, hsent, rfl⟩
    obtain ⟨pre, a, post, t, hacts, -, htask, -⟩ := Cluster.pushes_of_mem_sent hcluster hsent
    exact hdriven.exists_entry (by rw [hacts]; simp) (List.mem_of_getElem? htask)
  · rintro ⟨entry, hentry, rfl⟩
    obtain ⟨sent, hsent, htask⟩ := hdriven.mem_sent hcluster hentry
    exact ⟨rfl, sent, hsent, htask⟩

theorem sound_of_driven (hsha1 : InjectiveOnHashed sha1 docs)
    (hdocs : ∀ d call, calls d = some call → call.raw ∈ docs)
    (hcodec : ∀ entry, Takes calls entry →
      load (dump (ingestTask (parseEntry sha1 entry))) = some (ingestTask (parseEntry sha1 entry)))
    (hdriven : DrivenBy sha1 calls (acts.filterMap DeploymentAction.cluster?))
    (hrun : Runs.run (Deployment.step hash dump load embed) .start acts = some s) :
    KeyDetermined s.ingestTasks ∧ s.stores.Sound embed s.ingestTasks ∧
      ∀ entry ∈ s.completed, s.stores.Has entry.push.task := by
  let tasks := (acts.filterMap DeploymentAction.cluster?).flatMap ClusterAction.tasks
  have htasks : ∀ task ∈ tasks,
      ∃ entry, Takes calls entry ∧ task = ingestTask (parseEntry sha1 entry) := by
    intro task htask
    obtain ⟨a, ha, hmem⟩ := List.mem_flatMap.mp htask
    exact hdriven.exists_entry ha hmem
  have hparser : FromParser sha1 docs (tasks.filter IsIngest) := by
    intro task htask
    obtain ⟨entry, hentry, rfl⟩ := htasks task (List.mem_filter.mp htask).1
    obtain ⟨doc, hdoc, hmem⟩ := entry_mem_of_takes hdocs hentry
    exact ⟨doc, hdoc, _, List.mem_map_of_mem hmem, rfl⟩
  have hkeys := keyDetermined_of_fromParser hparser hsha1
  have hload : ∀ task ∈ tasks, load (dump task) = some task := by
    intro task htask
    obtain ⟨entry, hentry, rfl⟩ := htasks task htask
    exact hcodec entry hentry
  have hacts : ∀ a ∈ acts, ∀ task ∈ a.tasks, task ∈ tasks := by
    intro a ha task htask
    cases a with
    | cluster a => exact List.mem_flatMap.mpr ⟨a, List.mem_filterMap.mpr ⟨_, ha, rfl⟩, htask⟩
    | _ => cases htask
  have hs := Deployment.inv_run hkeys hload hacts hrun
  exact ⟨hs.keyDetermined hkeys, hs.sound, hs.completed⟩

/-- From the document to the answer of the tool. When calls of the driver, at any number of
dispatchers, have been carried out by any number of workers in any interleaving, so that each
task sent was handled without an exception at least once, `extract_clauses` shows for a
contract and a category the texts that the entries taken by the calls annotate with them, each
once, in the order of their ids. -/
theorem extract_after_ingest (hsha1 : InjectiveOnHashed sha1 docs)
    (hdocs : ∀ d call, calls d = some call → call.raw ∈ docs)
    (hcodec : ∀ entry, Takes calls entry →
      load (dump (ingestTask (parseEntry sha1 entry))) = some (ingestTask (parseEntry sha1 entry)))
    (hdriven : DrivenBy sha1 calls (acts.filterMap DeploymentAction.cluster?))
    (hrun : Runs.run (Deployment.step hash dump load embed) .start acts = some s)
    (hall : s.Ingested) {title category : String}
    (htitle : ∃ doc ∈ docs, ∃ entry ∈ doc.data, entry.title = title)
    {le : String → String → Prop} {rows : List ExtractedClause}
    (hrows : Extracts le s.stores (contractId sha1 title) category rows) :
    let result := extractClauses rows
    (∀ text, text ∈ result.clauses.map ExtractedClause.text ↔
        ∃ entry, Takes calls entry ∧ entry.title = title ∧
          ∃ a ∈ annotations entry, a.category = category ∧ a.text = text) ∧
      (result.clauses.map ExtractedClause.text).Nodup ∧
      result.count = (result.clauses.map ExtractedClause.text).length ∧
      (∀ c ∈ result.clauses, c =
        ⟨clauseId sha1 (contractId sha1 title) category c.text, c.text, none, none, none⟩) ∧
      result.clauses.Pairwise fun c d => le c.clauseId d.clauseId := by
  obtain ⟨hkeys, hsound, hcompleted⟩ := sound_of_driven hsha1 hdocs hcodec hdriven hrun
  have htasks := mem_ingestTasks_iff hdriven hrun
  have hform : ∀ c ∈ rows, c =
      ⟨clauseId sha1 (contractId sha1 title) category c.text, c.text, none, none, none⟩ := by
    intro c hc
    obtain ⟨t, ht, parsed, hparsed, hcid, rfl, rfl⟩ := mem_rows_of_sound hsound hrows hc
    obtain ⟨entry, -, rfl⟩ := (htasks t).mp ht
    obtain ⟨hpcid, hpid, -⟩ := mem_entryClauses (mem_unique hparsed)
    have hsame : parsed.contractId = contractId sha1 title := hpcid.trans hcid
    rw [hpid, hsame]
  refine ⟨?_, ?_, by simp [extractClauses], hform, hrows.ordered⟩
  · intro text
    constructor
    · intro htext
      obtain ⟨c, hc, rfl⟩ := List.mem_map.mp htext
      obtain ⟨t, ht, parsed, hparsed, hcid, hcategory, rfl⟩ := mem_rows_of_sound hsound hrows hc
      obtain ⟨entry, hentry, rfl⟩ := (htasks t).mp ht
      obtain ⟨doc, hdoc, hmem⟩ := entry_mem_of_takes hdocs hentry
      obtain ⟨doc', hdoc', entry', hmem', rfl⟩ := htitle
      refine ⟨entry, hentry, hsha1.titles doc hdoc entry hmem doc' hdoc' entry' hmem' hcid, ?_⟩
      exact (exists_clause_iff hsha1 hdoc hmem category parsed.text).mp
        ⟨parsed, hparsed, hcategory, rfl⟩
    · rintro ⟨entry, hentry, rfl, hannotation⟩
      obtain ⟨doc, hdoc, hmem⟩ := entry_mem_of_takes hdocs hentry
      obtain ⟨parsed, hparsed, rfl, rfl⟩ :=
        (exists_clause_iff hsha1 hdoc hmem category text).mpr hannotation
      have htask := (htasks _).mpr ⟨entry, hentry, rfl⟩
      obtain ⟨sent, hsent, heq⟩ := hall _ htask
      have hhas := hcompleted sent hsent
      rw [heq] at hhas
      exact List.mem_map.mpr
        ⟨_, mem_rows_of_has hkeys hsound htask hhas hparsed hrows, rfl⟩
  · apply hrows.nodup.map_on
    intro c hc d hd htext
    rw [hform c hc, hform d hd, htext]

/-- A driver and one worker, on a document with two entries of one title. -/
def sampleCall : Call := ⟨["worker:hb:a"], sampleDocument, none, by decide, by decide⟩

def sampleCalls (d : ℕ) : Option Call := if d = 0 then some sampleCall else none

def sampleActs : List (DeploymentAction ℕ) :=
  let turn : List (DeploymentAction ℕ) :=
    [.cluster (.worker "a" .poll), .cluster (.pop "a"), .cluster (.worker "a" .decode),
      .handler "a" 1, .handler "a" 2, .handler "a" 3, .handler "a" 4,
      .cluster (.worker "a" .finish)]
  (sampleCall.actions sampleSha1 0).map .cluster ++
    [.cluster (.worker "a" .start), .cluster (.serve 0), .cluster (.serve 0)] ++ turn ++ turn

theorem driven_sample : DrivenBy sampleSha1 sampleCalls
    (sampleActs.filterMap DeploymentAction.cluster?) := by
  intro d
  by_cases hd : d = 0
  · subst hd
    rfl
  · simp only [sampleCalls, if_neg hd]
    have hdispatchers : (sampleActs.filterMap DeploymentAction.cluster?).all
        (fun a => a.dispatcher = none || a.dispatcher = some 0) = true := rfl
    intro a ha heq
    have ha' := List.all_eq_true.mp hdispatchers a ha
    rw [heq] at ha'
    simp [hd] at ha'

theorem takes_sample_iff (entry : CuadEntry) :
    Takes sampleCalls entry ↔ entry ∈ sampleDocument.data := by
  constructor
  · rintro ⟨d, call, hcall, hentry⟩
    simp only [sampleCalls] at hcall
    split_ifs at hcall
    cases hcall
    exact hentry
  · exact fun hentry => ⟨0, sampleCall, rfl, hentry⟩

theorem raw_sampleCalls (d : ℕ) (call : Call) (hcall : sampleCalls d = some call) :
    call.raw ∈ [sampleDocument] := by
  simp only [sampleCalls] at hcall
  split_ifs at hcall
  cases hcall
  exact List.mem_singleton_self _

theorem exists_sample_run : ∃ s : Deployment ℕ ℕ IngestTask,
    Runs.run (Deployment.step (fun _ => 0) id some fun text => [text.length]) .start sampleActs =
      some s ∧ s.Ingested ∧
    s.ingestTasks =
      sampleDocument.data.map fun entry => ingestTask (parseEntry sampleSha1 entry) := by
  have hrun : ((Runs.run (Deployment.step (fun _ => 0) id some fun text => [text.length])
      .start sampleActs).map fun s =>
        (s.ingestTasks, s.completed.map fun entry : Entry ParsedContract IngestTask =>
          entry.push.task)) =
      some (sampleDocument.data.map fun entry => ingestTask (parseEntry sampleSha1 entry),
        sampleDocument.data.map fun entry => ingestTask (parseEntry sampleSha1 entry)) := by
    decide +kernel
  obtain ⟨s, hs, hvalues⟩ := Option.map_eq_some_iff.mp hrun
  obtain ⟨hsent, hcompleted⟩ := Prod.mk.inj hvalues
  refine ⟨s, hs, fun task htask => ?_, hsent⟩
  have hmem : task ∈ s.completed.map fun entry => entry.push.task := by
    rw [hcompleted, ← hsent]
    exact htask
  simpa using hmem

theorem extract_after_ingest_shared_title :
    let call : Call := ⟨["worker:hb:a"], sampleDocument, none, by decide, by decide⟩
    let turn : List (DeploymentAction ℕ) :=
      [.cluster (.worker "a" .poll), .cluster (.pop "a"), .cluster (.worker "a" .decode),
        .handler "a" 1, .handler "a" 2, .handler "a" 3, .handler "a" 4,
        .cluster (.worker "a" .finish)]
    let acts : List (DeploymentAction ℕ) :=
      (call.actions sampleSha1 0).map .cluster ++
        [.cluster (.worker "a" .start), .cluster (.serve 0), .cluster (.serve 0)] ++ turn ++ turn
    let rows : List ExtractedClause :=
      [⟨"15db50f7a0616bf4-2c08073f3f", "Zeta | Co.", none, none, none⟩,
        ⟨"15db50f7a0616bf4-f3c36fe176", "Acme", none, none, none⟩]
    ∃ s : Deployment ℕ ℕ IngestTask,
      Runs.run (Deployment.step (fun _ => 0) id some fun text => [text.length]) .start acts =
        some s ∧
      Extracts (· ≤ ·) s.stores (contractId sampleSha1 "Supply Agreement.pdf") "parties" rows ∧
      ∀ text, text ∈ rows.map ExtractedClause.text ↔ ∃ entry ∈ sampleDocument.data,
        entry.title = "Supply Agreement.pdf" ∧
          ∃ a ∈ annotations entry, a.category = "parties" ∧ a.text = text := by
  intro call turn acts rows
  let cid := contractId sampleSha1 "Supply Agreement.pdf"
  obtain ⟨s, hs, hall, hsent⟩ := exists_sample_run
  have hstored : ((Runs.run (Deployment.step (τ := ℕ) (fun _ => 0) id some
      fun text => [text.length]) .start sampleActs).map fun s =>
      rows.map fun c => (s.stores.clauses (cid, c.clauseId)).map fun row =>
        (row.category, shown c.clauseId row)) = some (rows.map fun c => some ("parties", c)) := by
    decide +kernel
  rw [hs, Option.map_some] at hstored
  have hextracts : Extracts (· ≤ ·) s.stores cid "parties" rows := by
    obtain ⟨-, hsound, -⟩ :=
      sound_of_driven injectiveOnHashed_sample raw_sampleCalls (fun _ _ => rfl) driven_sample hs
    apply extracts_of_sound hsound
    · decide +kernel
    · decide +kernel
    · intro c hc
      have hpair := List.map_inj_left.mp (Option.some.inj hstored) c hc
      obtain ⟨row, hrow, hshown⟩ := Option.map_eq_some_iff.mp hpair
      obtain ⟨hcategory, hshown⟩ := Prod.mk.inj hshown
      exact ⟨row, hrow, hcategory, hshown.symm⟩
    · rw [hsent]
      decide +kernel
  refine ⟨s, hs, hextracts, ?_⟩
  have htitle : ∃ doc ∈ [sampleDocument], ∃ entry ∈ doc.data,
      entry.title = "Supply Agreement.pdf" :=
    ⟨_, List.mem_singleton_self _, sampleEntry, List.mem_cons_self, rfl⟩
  obtain ⟨htext, -⟩ := extract_after_ingest injectiveOnHashed_sample raw_sampleCalls
    (fun _ _ => rfl) driven_sample hs hall htitle hextracts
  intro text
  exact (htext text).trans (exists_congr fun entry => and_congr_left' (takes_sample_iff entry))

end Driven

end LegalLens.Retrieval
