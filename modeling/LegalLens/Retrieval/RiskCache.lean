import LegalLens.Ingestion.Convergence
import LegalLens.Retrieval.Tools

/-!
# Cached risks agree with the texts

Between the two transactions of a scoring call the row may be written again, and the update
names a clause id only, not the key of the table. Both are harmless because the id of a
parsed clause determines its contract and its text: every row that the update reaches has the
text that the call has read, whatever was ingested in between.
-/

namespace LegalLens.Retrieval

open Ingestion

variable {β τ : Type*}

/-- Executions of the ingest handler and calls of `score_clause_risk`. -/
structure Scoring (β τ : Type*) where
  pipeline : Pipeline β τ
  calls : ℕ → Option ScoreCall

namespace Scoring

inductive Action (τ : Type*) where
  | ingest (a : Pipeline.Action τ)
  /-- A new call runs its query; it yields the row of a contract, or none. -/
  | select (i : ℕ) (clauseId : String) (contractId : Option String)
  /-- A call runs its update and returns. -/
  | update (i : ℕ)

def start : Scoring β τ := ⟨.start, fun _ => none⟩

/-- The row that the query yields under `contractId`, if it may do so: `some none` is the
empty result, for which no contract of a task has the clause. -/
def selected (tasks : List IngestTask) (s : Stores β τ) (clauseId : String) :
    Option String → Option (Option (ClauseRow τ))
  | none => if ∀ t ∈ tasks, (s.clauses (t.payload.contractId, clauseId)).isNone then some none
    else none
  | some contractId => (s.clauses (contractId, clauseId)).map some

def step (embed : String → List β) (tasks : List IngestTask) (s : Scoring β τ) :
    Action τ → Option (Scoring β τ)
  | .ingest a => (s.pipeline.step embed tasks a).map fun p => { s with pipeline := p }
  | .select i clauseId contractId =>
    if (s.calls i).isSome then none
    else (selected tasks s.pipeline.stores clauseId contractId).map fun row =>
      { s with calls := Function.update s.calls i (some (selectClause clauseId row)) }
  | .update i =>
    match s.calls i with
    | none => none
    | some call =>
      (call.step s.pipeline.stores).map fun r =>
        ⟨{ s.pipeline with stores := r.2 }, Function.update s.calls i (some r.1)⟩

end Scoring

def Scored (row : ClauseRow τ) : Prop :=
  row.riskLevel = some (riskOf row.text).level ∧
    row.riskRationale = some (riskOf row.text).rationale

/-- The keys of the rows that `UPDATE ... WHERE clause_id = :id` touches. -/
def updatedKeys (s : Stores β τ) (clauseId : String) : Set (String × String) :=
  {key | key.2 = clauseId ∧ (s.clauses key).isSome}

/-- A text of the clause with the given id in a task. -/
def TextOf (tasks : List IngestTask) (clauseId text : String) : Prop :=
  ∃ t ∈ tasks, ∃ c ∈ t.payload.clauses, c.clauseId = clauseId ∧ c.text = text

/-- A row at a key comes from a task, and its risk is unset or that of its text. -/
structure CachedRow (tasks : List IngestTask) (key : String × String) (row : ClauseRow τ) :
    Prop where
  source : ∃ t ∈ tasks, ∃ c ∈ t.payload.clauses, key = (t.payload.contractId, c.clauseId) ∧
    row.text = c.text
  risk : row.riskLevel = none ∨ Scored row

def Cached (tasks : List IngestTask) (s : Stores β τ) : Prop :=
  ∀ key row, s.clauses key = some row → CachedRow tasks key row

section Stores

variable {embed : String → List β} {tasks : List IngestTask} {s : Stores β τ}

theorem CachedRow.textOf {key : String × String} {row : ClauseRow τ}
    (h : CachedRow tasks key row) : TextOf tasks key.2 row.text := by
  obtain ⟨t, ht, c, hc, rfl, htext⟩ := h.source
  exact ⟨t, ht, c, hc, rfl, htext.symm⟩

theorem TextOf.unique (hkeys : KeyDetermined tasks) {id text text' : String}
    (h : TextOf tasks id text) (h' : TextOf tasks id text') : text = text' := by
  obtain ⟨t, ht, c, hc, hid, rfl⟩ := h
  obtain ⟨u, hu, d, hd, hid', rfl⟩ := h'
  exact (hkeys.clause t ht c hc u hu d hd (hid.trans hid'.symm)).2.2

/-- An id has one contract, so a query by clause id is one by primary key. -/
theorem Cached.subsingleton_updatedKeys (hkeys : KeyDetermined tasks) (hs : Cached tasks s)
    (clauseId : String) : (updatedKeys s clauseId).Subsingleton := by
  rintro key ⟨hid, hsome⟩ key' ⟨hid', hsome'⟩
  obtain ⟨row, hrow⟩ := Option.isSome_iff_exists.mp hsome
  obtain ⟨row', hrow'⟩ := Option.isSome_iff_exists.mp hsome'
  obtain ⟨t, ht, c, hc, rfl, -⟩ := (hs key row hrow).source
  obtain ⟨u, hu, d, hd, rfl, -⟩ := (hs key' row' hrow').source
  have hsame : c.clauseId = d.clauseId := hid.trans hid'.symm
  rw [(hkeys.clause t ht c hc u hu d hd hsame).1, hsame]

/-- Writing a clause again leaves the risk, which the text it had before determines. -/
theorem Cached.upsertClause (hkeys : KeyDetermined tasks) (hs : Cached tasks s)
    {task : IngestTask} (ht : task ∈ tasks) {c : ParsedClause} (hc : c ∈ task.payload.clauses)
    (now : τ) : Cached tasks (Stores.upsertClause task.payload.contractId now s c) := by
  intro key row h
  rcases KeyedWrites.update_eq_some_iff.mp h with ⟨rfl, rfl⟩ | ⟨-, h⟩
  · cases hold : s.clauses (task.payload.contractId, c.clauseId) with
    | none => exact ⟨⟨task, ht, c, hc, rfl, rfl⟩, Or.inl rfl⟩
    | some old =>
      have hcached := hs _ old hold
      have htext : old.text = c.text :=
        hcached.textOf.unique hkeys ⟨task, ht, c, hc, rfl, rfl⟩
      refine ⟨⟨task, ht, c, hc, rfl, rfl⟩, ?_⟩
      dsimp only
      rw [← htext]
      exact hcached.risk
  · exact hs key row h

theorem Cached.upsertClauses (hkeys : KeyDetermined tasks) (hs : Cached tasks s)
    {task : IngestTask} (ht : task ∈ tasks) {clauses : List ParsedClause}
    (hclauses : ∀ c ∈ clauses, c ∈ task.payload.clauses) (now : τ) :
    Cached tasks (s.upsertClauses task.payload.contractId clauses now) := by
  induction clauses generalizing s with
  | nil => exact hs
  | cons c clauses ih =>
    exact ih (hs.upsertClause hkeys ht (hclauses c (by simp)) now)
      fun d hd => hclauses d (by simp [hd])

theorem Cached.updateRisk (hkeys : KeyDetermined tasks) (hs : Cached tasks s)
    {clauseId text : String} (htext : TextOf tasks clauseId text) :
    Cached tasks (updateRisk s clauseId (riskOf text)) := by
  intro key row h
  simp only [Retrieval.updateRisk] at h
  split_ifs at h with hid
  · obtain ⟨old, hold, rfl⟩ := Option.map_eq_some_iff.mp h
    have hcached := hs key old hold
    have hsame : text = old.text := htext.unique hkeys (hid ▸ hcached.textOf)
    refine ⟨hcached.source, Or.inr ?_⟩
    unfold Scored
    rw [hsame]
    exact ⟨rfl, rfl⟩
  · exact hs key row h

theorem Cached.execution_step (hkeys : KeyDetermined tasks) (hs : Cached tasks s)
    {ex ex' : Execution β} (ht : ex.task ∈ tasks) {now : τ} {s' : Stores β τ}
    (h : ex.step embed now s = some (ex', s')) : ex'.task = ex.task ∧ Cached tasks s' := by
  obtain ⟨task, stage⟩ := ex
  cases stage with
  | contract =>
    cases h
    exact ⟨rfl, hs⟩
  | embed =>
    cases h
    exact ⟨rfl, hs⟩
  | vectors embedded =>
    cases h
    exact ⟨rfl, hs⟩
  | rows =>
    cases h
    exact ⟨rfl, hs.upsertClauses hkeys ht (fun _ => id) now⟩
  | done => cases h

end Stores

namespace Scoring

variable {embed : String → List β} {tasks : List IngestTask} {s u : Scoring β τ}

/-- What a call between its transactions has read is the text of its clause. -/
structure Inv (tasks : List IngestTask) (s : Scoring β τ) : Prop where
  executions : ∀ e ex, s.pipeline.executions e = some ex → ex.task ∈ tasks
  cached : Cached tasks s.pipeline.stores
  calls : ∀ i id category text, s.calls i = some (.selected id category text) →
    TextOf tasks id text

theorem inv_start : Inv tasks (start : Scoring β τ) :=
  ⟨(fun _ _ h => nomatch h), (fun _ _ h => nomatch h), fun _ _ _ _ h => nomatch h⟩

theorem inv_ingest (hkeys : KeyDetermined tasks) {a : Pipeline.Action τ} (hs : Inv tasks s)
    {p : Pipeline β τ} (h : s.pipeline.step embed tasks a = some p) :
    Inv tasks { s with pipeline := p } := by
  cases a with
  | begin e task =>
    obtain ⟨htask, -, rfl⟩ := Pipeline.eq_of_begin h
    refine ⟨fun f ex hf => ?_, hs.cached, hs.calls⟩
    rcases KeyedWrites.update_eq_some_iff.mp hf with ⟨-, rfl⟩ | ⟨-, hf⟩
    · exact htask
    · exact hs.executions f ex hf
  | step e now =>
    obtain ⟨ex, ex', stores', hex, hstep, rfl⟩ := Pipeline.eq_of_step h
    have ht := hs.executions e ex hex
    obtain ⟨htask, hcached⟩ := hs.cached.execution_step hkeys ht hstep
    refine ⟨fun f fx hf => ?_, hcached, hs.calls⟩
    rcases KeyedWrites.update_eq_some_iff.mp hf with ⟨-, rfl⟩ | ⟨-, hf⟩
    · exact htask ▸ ht
    · exact hs.executions f fx hf

theorem inv_select {i : ℕ} {clauseId : String} {contractId : Option String} (hs : Inv tasks s)
    (h : s.step embed tasks (.select i clauseId contractId) = some u) : Inv tasks u := by
  simp only [step] at h
  split_ifs at h
  obtain ⟨row, hrow, rfl⟩ := Option.map_eq_some_iff.mp h
  refine ⟨hs.executions, hs.cached, ?_⟩
  intro j id category text hj
  rcases KeyedWrites.update_eq_some_iff.mp hj with ⟨-, hcall⟩ | ⟨-, hj⟩
  · cases row with
    | none => cases hcall
    | some row =>
      cases hcall
      cases contractId with
      | none => simp [selected] at hrow
      | some cid =>
        obtain ⟨_, hstored, heq⟩ := Option.map_eq_some_iff.mp hrow
        cases heq
        exact (hs.cached _ row hstored).textOf
  · exact hs.calls j id category text hj

theorem inv_update (hkeys : KeyDetermined tasks) {i : ℕ} (hs : Inv tasks s)
    (h : s.step embed tasks (.update i) = some u) : Inv tasks u := by
  simp only [step] at h
  split at h
  · cases h
  next call hcall =>
    obtain ⟨⟨call', stores'⟩, hstep, rfl⟩ := Option.map_eq_some_iff.mp h
    cases call with
    | returned result => cases hstep
    | selected id category text =>
      cases hstep
      refine ⟨hs.executions, hs.cached.updateRisk hkeys (hs.calls i id category text hcall), ?_⟩
      intro j id' category' text' hj
      rcases KeyedWrites.update_eq_some_iff.mp hj with ⟨-, hreturned⟩ | ⟨-, hj⟩
      · cases hreturned
      · exact hs.calls j id' category' text' hj

theorem inv_step (hkeys : KeyDetermined tasks) {a : Action τ} (hs : Inv tasks s)
    (h : s.step embed tasks a = some u) : Inv tasks u := by
  cases a with
  | ingest a =>
    obtain ⟨p, hp, rfl⟩ := Option.map_eq_some_iff.mp h
    exact inv_ingest hkeys hs hp
  | select i clauseId contractId => exact inv_select hs h
  | update i => exact inv_update hkeys hs h

theorem inv_run (hkeys : KeyDetermined tasks) {acts : List (Action τ)}
    (hrun : Runs.run (step embed tasks) start acts = some s) : Inv tasks s :=
  Runs.invariant (fun _ _ _ hs h => inv_step hkeys hs h) inv_start hrun

/-- In every reachable state a row with a risk level has the level and the rationale of its
current text, and an update by clause id touches at most one row. -/
theorem cached_risk_agrees (sha1 : String → BitVec 160) (embed : String → List β)
    {docs : List CuadDocument} {tasks : List IngestTask} (htasks : FromParser sha1 docs tasks)
    (hsha1 : InjectiveOnHashed sha1 docs) {acts : List (Action τ)} {s : Scoring β τ}
    (hrun : Runs.run (step embed tasks) start acts = some s) :
    (∀ key row, s.pipeline.stores.clauses key = some row → row.riskLevel.isSome → Scored row) ∧
      ∀ clauseId, (updatedKeys s.pipeline.stores clauseId).Subsingleton := by
  have hkeys := keyDetermined_of_fromParser htasks hsha1
  have hcached := (inv_run hkeys hrun).cached
  constructor
  · intro key row hrow hset
    rcases (hcached key row hrow).risk with hnone | hscored
    · rw [hnone] at hset
      cases hset
    · exact hscored
  · exact hcached.subsingleton_updatedKeys hkeys

/-- A clause is read, ingested once more, and then scored. -/
theorem cached_risk_agrees_reingested :
    let task := ingestTask (parseEntry sampleSha1 sampleEntry)
    let key := ("15db50f7a0616bf4", "15db50f7a0616bf4-f3c36fe176")
    let acts : List (Action ℕ) :=
      [.select 0 key.2 none, .ingest (.begin 0 task), .ingest (.step 0 1), .ingest (.step 0 2),
        .ingest (.step 0 3), .ingest (.step 0 4), .select 1 key.2 (some key.1),
        .ingest (.begin 1 task), .ingest (.step 1 5), .ingest (.step 1 6), .ingest (.step 1 7),
        .ingest (.step 1 8), .update 1]
    ∃ s : Scoring ℕ ℕ, Runs.run (step (fun text => [text.length]) [task]) start acts = some s ∧
      ∃ row, s.pipeline.stores.clauses key = some row ∧ row.riskLevel = some "low" ∧
        Scored row ∧ (updatedKeys s.pipeline.stores key.2).Subsingleton := by
  intro task key acts
  have hacts : ((Runs.run (step (fun text => [text.length]) [task]) start acts).map fun s =>
      (s.pipeline.stores.clauses key).map ClauseRow.riskLevel) = some (some (some "low")) := by
    decide +kernel
  obtain ⟨s, hs, hlevel⟩ := Option.map_eq_some_iff.mp hacts
  obtain ⟨row, hrow, hlow⟩ := Option.map_eq_some_iff.mp hlevel
  have htasks : FromParser sampleSha1 [sampleDocument] [task] := by
    intro t ht
    cases List.mem_singleton.mp ht
    exact ⟨_, List.mem_singleton_self _, parseEntry sampleSha1 sampleEntry,
      List.mem_map_of_mem (by simp [sampleDocument]), rfl⟩
  obtain ⟨hscored, hkeys⟩ := cached_risk_agrees sampleSha1 _ htasks injectiveOnHashed_sample hs
  exact ⟨s, hs, row, hrow, hlow, hscored key row hrow (by simp [hlow]), hkeys key.2⟩

end Scoring

end LegalLens.Retrieval
