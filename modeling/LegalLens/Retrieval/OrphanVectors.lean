import LegalLens.Ingestion.Convergence
import LegalLens.Retrieval.Tools

/-!
# Vectors without rows

The vector store and the table of clauses are written one after the other. An execution that
raises in between leaves its vectors behind, and nothing removes them. Here is what such
failures leave in the two stores when no execution is running, and which matches of a search
they cost.
-/

namespace LegalLens.Retrieval

open Ingestion

variable {β τ ν : Type*}

/-- Executions of the ingest handler, and those that have raised. -/
structure Attempts (β τ : Type*) where
  pipeline : Pipeline β τ
  failed : ℕ → Bool

namespace Attempts

inductive Action (τ : Type*) where
  | begin (e : ℕ) (task : IngestTask)
  | step (e : ℕ) (now : τ)
  /-- The next step of an execution raises: a transaction is rolled back, and the vector
  store is as before. The worker goes on. -/
  | raises (e : ℕ)

def start : Attempts β τ := ⟨.start, fun _ => false⟩

def step (embed : String → List β) (tasks : List IngestTask) (s : Attempts β τ) :
    Action τ → Option (Attempts β τ)
  | .begin e task =>
    (s.pipeline.step embed tasks (.begin e task)).map fun p => { s with pipeline := p }
  | .step e now =>
    if s.failed e then none
    else (s.pipeline.step embed tasks (.step e now)).map fun p => { s with pipeline := p }
  | .raises e =>
    match s.pipeline.executions e with
    | none => none
    | some ex =>
      if s.failed e ∨ ex.returned.isSome then none
      else some { s with failed := Function.update s.failed e true }

def Idle (s : Attempts β τ) : Prop :=
  ∀ e ex, s.pipeline.executions e = some ex → ex.returned.isSome ∨ s.failed e = true

end Attempts

def clauseIds (ex : Execution β) : List String := ex.task.payload.clauses.map ParsedClause.clauseId

/-- The vector upsert has happened, if the task has clauses. -/
def upserted (ex : Execution β) : Bool :=
  match ex.stage with
  | .rows | .done => true
  | _ => false

/-- The transaction of the clause rows has been committed, if the task has clauses. -/
def committed (ex : Execution β) : Bool := ex.returned.isSome

/-- An execution has written the clause with the given id, in the sense of `written`. -/
def WrittenBy (written : Execution β → Bool) (s : Pipeline β τ) (e : ℕ) (id : String) : Prop :=
  ∃ ex, s.executions e = some ex ∧ written ex = true ∧ id ∈ clauseIds ex

section Step

variable {embed : String → List β} {s : Pipeline β τ} {id : String}

theorem upserted_of_committed {ex : Execution β} (h : committed ex = true) :
    upserted ex = true := by
  obtain ⟨task, stage⟩ := ex
  cases stage with
  | done => rfl
  | _ => cases h

theorem exists_writtenBy_update_iff {written : Execution β → Bool} {e : ℕ} {ex ex' : Execution β}
    (hex : s.executions e = some ex) (hids : clauseIds ex' = clauseIds ex)
    (hmono : written ex = true → written ex' = true) {stores : Stores β τ} :
    (∃ f, WrittenBy written ⟨stores, Function.update s.executions e (some ex')⟩ f id) ↔
      (∃ f, WrittenBy written s f id) ∨ written ex' = true ∧ id ∈ clauseIds ex := by
  constructor
  · rintro ⟨f, fx, hf, hwritten, hid⟩
    rcases KeyedWrites.update_eq_some_iff.mp hf with ⟨-, rfl⟩ | ⟨-, hf⟩
    · exact Or.inr ⟨hwritten, hids ▸ hid⟩
    · exact Or.inl ⟨f, fx, hf, hwritten, hid⟩
  · rintro (⟨f, fx, hf, hwritten, hid⟩ | ⟨hwritten, hid⟩)
    · by_cases hfe : f = e
      · subst hfe
        rw [hex] at hf
        cases hf
        exact ⟨f, ex', Function.update_self .., hmono hwritten, hids ▸ hid⟩
      · exact ⟨f, fx, (Function.update_of_ne hfe ..).trans hf, hwritten, hid⟩
    · exact ⟨e, ex', Function.update_self .., hwritten, hids ▸ hid⟩

theorem exists_writtenBy_begin_iff {written : Execution β → Bool} {e : ℕ} {task : IngestTask}
    (hfresh : s.executions e = none) (hbegin : written ⟨task, .contract⟩ = false) :
    (∃ f, WrittenBy written
      { s with executions := Function.update s.executions e (some ⟨task, .contract⟩) } f id) ↔
      ∃ f, WrittenBy written s f id := by
  constructor
  · rintro ⟨f, fx, hf, hwritten, hid⟩
    rcases KeyedWrites.update_eq_some_iff.mp hf with ⟨-, rfl⟩ | ⟨-, hf⟩
    · rw [hbegin] at hwritten
      cases hwritten
    · exact ⟨f, fx, hf, hwritten, hid⟩
  · rintro ⟨f, fx, hf, hwritten, hid⟩
    have hfe : f ≠ e := by
      rintro rfl
      rw [hfresh] at hf
      cases hf
    exact ⟨f, fx, (Function.update_of_ne hfe ..).trans hf, hwritten, hid⟩

theorem hasRow_upsertClause_iff {stores : Stores β τ} {contractId : String} (now : τ)
    {c : ParsedClause} :
    HasRow (Stores.upsertClause contractId now stores c) id ↔
      HasRow stores id ∨ id = c.clauseId := by
  constructor
  · rintro ⟨cid, hsome⟩
    rcases KeyedWrites.isSome_update_iff.mp hsome with hkey | hsome
    · exact Or.inr (Prod.mk.inj hkey).2
    · exact Or.inl ⟨cid, hsome⟩
  · rintro (⟨cid, hsome⟩ | rfl)
    · exact ⟨cid, KeyedWrites.isSome_update_iff.mpr (Or.inr hsome)⟩
    · exact ⟨contractId, KeyedWrites.isSome_update_iff.mpr (Or.inl rfl)⟩

theorem hasRow_upsertClauses_iff {stores : Stores β τ} {contractId : String}
    {clauses : List ParsedClause} {now : τ} :
    HasRow (stores.upsertClauses contractId clauses now) id ↔
      HasRow stores id ∨ id ∈ clauses.map ParsedClause.clauseId := by
  induction clauses generalizing stores with
  | nil => simp [Stores.upsertClauses]
  | cons c clauses ih =>
    rw [List.map_cons, List.mem_cons, ← or_assoc, ← hasRow_upsertClause_iff now]
    exact ih

theorem vectors_upsertClauses (stores : Stores β τ) (contractId : String)
    (clauses : List ParsedClause) (now : τ) :
    (stores.upsertClauses contractId clauses now).vectors = stores.vectors := by
  induction clauses generalizing stores with
  | nil => rfl
  | cons c clauses ih => exact ih _

theorem isSome_upsertVectors_iff {stores : Stores β τ} {contractId : String}
    {clauses : List ParsedClause} :
    ((stores.upsertVectors (Stores.vectorRecords contractId clauses
      (clauses.map fun c => embed c.text))).vectors id).isSome ↔
      (stores.vectors id).isSome ∨ id ∈ clauses.map ParsedClause.clauseId := by
  unfold Stores.upsertVectors
  rw [KeyedWrites.isSome_writeAll_iff, Stores.vectorRecords_embed, List.map_map]
  rfl

/-- What a step of one execution does to the ids in the stores. -/
structure Adds (embed : String → List β) (ex ex' : Execution β) (stores stores' : Stores β τ) :
    Prop where
  task : ex'.task = ex.task
  embedded : ∀ vectors, ex'.stage = .vectors vectors →
    vectors = ex.task.payload.clauses.map fun c => embed c.text
  running : committed ex = false
  upserted : upserted ex = true → upserted ex' = true
  vectors : ∀ id, (stores'.vectors id).isSome ↔
    (stores.vectors id).isSome ∨ Retrieval.upserted ex' = true ∧ id ∈ clauseIds ex
  rows : ∀ id, HasRow stores' id ↔
    HasRow stores id ∨ committed ex' = true ∧ id ∈ clauseIds ex

theorem adds_of_step {ex ex' : Execution β} {stores stores' : Stores β τ} {now : τ}
    (hembedded : ∀ vectors, ex.stage = .vectors vectors →
      vectors = ex.task.payload.clauses.map fun c => embed c.text)
    (hold : upserted ex = true → ∀ id ∈ clauseIds ex, (stores.vectors id).isSome)
    (h : ex.step embed now stores = some (ex', stores')) : Adds embed ex ex' stores stores' := by
  obtain ⟨task, stage⟩ := ex
  cases stage with
  | contract =>
    cases h
    by_cases hnil : task.payload.clauses = []
    · rw [if_pos hnil]
      have hids : clauseIds (⟨task, .contract⟩ : Execution β) = [] := by simp [clauseIds, hnil]
      exact ⟨rfl, nofun, rfl, nofun, fun id => by simp [hids, Stores.upsertContract],
        fun id => by simp [hids, HasRow, Stores.upsertContract]⟩
    · rw [if_neg hnil]
      exact ⟨rfl, nofun, rfl, nofun, fun id => by simp [upserted, Stores.upsertContract],
        fun id => by simp [committed, Execution.returned, HasRow, Stores.upsertContract]⟩
  | embed =>
    cases h
    refine ⟨rfl, ?_, rfl, nofun, fun id => by simp [upserted],
      fun id => by simp [committed, Execution.returned]⟩
    intro vectors hstage
    cases hstage
    rfl
  | vectors embedded =>
    cases h
    have hvectors : embedded = task.payload.clauses.map fun c => embed c.text :=
      hembedded embedded rfl
    subst hvectors
    refine ⟨rfl, nofun, rfl, nofun, fun id => ?_, fun id => ?_⟩
    · rw [isSome_upsertVectors_iff]
      simp [upserted, clauseIds]
    · simp [committed, Execution.returned, HasRow, Stores.upsertVectors]
  | rows =>
    cases h
    refine ⟨rfl, nofun, rfl, fun _ => rfl, fun id => ?_, fun id => ?_⟩
    · rw [vectors_upsertClauses]
      constructor
      · exact Or.inl
      · rintro (hsome | ⟨-, hid⟩)
        · exact hsome
        · exact hold rfl id hid
    · rw [hasRow_upsertClauses_iff]
      simp [committed, Execution.returned, clauseIds]
  | done => cases h

end Step

/-- The ids in each store are those written by some execution. -/
structure Accounted (embed : String → List β) (s : Pipeline β τ) : Prop where
  embedded : ∀ e task vectors, s.executions e = some ⟨task, .vectors vectors⟩ →
    vectors = task.payload.clauses.map fun c => embed c.text
  vectors : ∀ id, (s.stores.vectors id).isSome ↔ ∃ e, WrittenBy upserted s e id
  rows : ∀ id, HasRow s.stores id ↔ ∃ e, WrittenBy committed s e id

section Pipeline

variable {embed : String → List β} {tasks : List IngestTask} {s u : Pipeline β τ}

theorem accounted_start : Accounted embed (.start : Pipeline β τ) := by
  refine ⟨(fun _ _ _ h => nomatch h), fun id => ?_, fun id => ?_⟩
  · simp [Pipeline.start, Stores.empty, WrittenBy]
  · simp [Pipeline.start, Stores.empty, WrittenBy, HasRow]

theorem Accounted.begin {e : ℕ} {task : IngestTask} (hs : Accounted embed s)
    (h : s.step embed tasks (.begin e task) = some u) : Accounted embed u := by
  obtain ⟨-, hfresh, rfl⟩ := Pipeline.eq_of_begin h
  refine ⟨?_, fun id => ?_, fun id => ?_⟩
  · intro f task' vectors hf
    rcases KeyedWrites.update_eq_some_iff.mp hf with ⟨-, heq⟩ | ⟨-, hf⟩
    · cases heq
    · exact hs.embedded f task' vectors hf
  · rw [exists_writtenBy_begin_iff hfresh rfl]
    exact hs.vectors id
  · rw [exists_writtenBy_begin_iff hfresh rfl]
    exact hs.rows id

theorem Accounted.step {e : ℕ} {now : τ} (hs : Accounted embed s)
    (h : s.step embed tasks (.step e now) = some u) : Accounted embed u := by
  obtain ⟨ex, ex', stores', hex, hstep, rfl⟩ := Pipeline.eq_of_step h
  have hadds : Adds embed ex ex' s.stores stores' := by
    refine adds_of_step (fun vectors hstage => ?_) (fun hup id hid => ?_) hstep
    · exact hs.embedded e ex.task vectors (hex.trans (by rw [← hstage]))
    · exact (hs.vectors id).mpr ⟨e, ex, hex, hup, hid⟩
  have hids : clauseIds ex' = clauseIds ex := by rw [clauseIds, hadds.task, clauseIds]
  refine ⟨?_, fun id => ?_, fun id => ?_⟩
  · intro f task vectors hf
    rcases KeyedWrites.update_eq_some_iff.mp hf with ⟨-, rfl⟩ | ⟨-, hf⟩
    · exact (hadds.embedded vectors rfl).trans (by rw [← hadds.task])
    · exact hs.embedded f task vectors hf
  · rw [exists_writtenBy_update_iff hex hids hadds.upserted, ← hs.vectors]
    exact hadds.vectors id
  · have hrunning : committed ex = true → committed ex' = true := by
      intro hcommitted
      rw [hadds.running] at hcommitted
      cases hcommitted
    rw [exists_writtenBy_update_iff hex hids hrunning, ← hs.rows]
    exact hadds.rows id

end Pipeline

namespace Attempts

variable {embed : String → List β} {tasks : List IngestTask} {s u : Attempts β τ}

/-- An execution that has raised never returns. -/
structure Inv (embed : String → List β) (s : Attempts β τ) : Prop where
  accounted : Accounted embed s.pipeline
  failed : ∀ e ex, s.failed e = true → s.pipeline.executions e = some ex → committed ex = false

theorem inv_start : Inv embed (start : Attempts β τ) :=
  ⟨accounted_start, fun _ _ h => nomatch h⟩

theorem inv_begin {e : ℕ} {task : IngestTask} (hs : Inv embed s)
    (h : s.step embed tasks (.begin e task) = some u) : Inv embed u := by
  obtain ⟨p, hp, rfl⟩ := Option.map_eq_some_iff.mp h
  refine ⟨hs.accounted.begin hp, ?_⟩
  obtain ⟨-, -, rfl⟩ := Pipeline.eq_of_begin hp
  intro f ex hfailed hf
  rcases KeyedWrites.update_eq_some_iff.mp hf with ⟨-, rfl⟩ | ⟨-, hf⟩
  · rfl
  · exact hs.failed f ex hfailed hf

theorem inv_advance {e : ℕ} {now : τ} (hs : Inv embed s)
    (h : s.step embed tasks (.step e now) = some u) : Inv embed u := by
  simp only [step] at h
  split_ifs at h with hrunning
  obtain ⟨p, hp, rfl⟩ := Option.map_eq_some_iff.mp h
  refine ⟨hs.accounted.step hp, ?_⟩
  obtain ⟨ex, ex', stores', -, -, rfl⟩ := Pipeline.eq_of_step hp
  intro f fx hfailed hf
  rcases KeyedWrites.update_eq_some_iff.mp hf with ⟨rfl, -⟩ | ⟨-, hf⟩
  · exact absurd hfailed hrunning
  · exact hs.failed f fx hfailed hf

theorem inv_raises {e : ℕ} (hs : Inv embed s)
    (h : s.step embed tasks (.raises e) = some u) : Inv embed u := by
  simp only [step] at h
  split at h
  · cases h
  next ex hex =>
    split_ifs at h with hrunning
    cases h
    refine ⟨hs.accounted, ?_⟩
    intro f fx hfailed hf
    by_cases hfe : f = e
    · subst hfe
      dsimp only at hf
      rw [hex] at hf
      cases hf
      exact Bool.eq_false_of_not_eq_true fun hcommitted => hrunning (Or.inr hcommitted)
    · dsimp only at hfailed
      rw [Function.update_of_ne hfe] at hfailed
      exact hs.failed f fx hfailed hf

theorem inv_step {a : Action τ} (hs : Inv embed s) (h : s.step embed tasks a = some u) :
    Inv embed u := by
  cases a with
  | begin e task => exact inv_begin hs h
  | step e now => exact inv_advance hs h
  | raises e => exact inv_raises hs h

theorem inv_run {acts : List (Action τ)} (hrun : Runs.run (step embed tasks) start acts = some s) :
    Inv embed s :=
  Runs.invariant (fun _ _ _ hs h => inv_step hs h) inv_start hrun

/-- When no execution is running, those that have not raised have committed their rows. -/
theorem Inv.hasRow_iff (hs : Inv embed s) (hidle : s.Idle) (id : String) :
    HasRow s.pipeline.stores id ↔ ∃ e, WrittenBy upserted s.pipeline e id ∧ s.failed e = false := by
  rw [hs.accounted.rows]
  constructor
  · rintro ⟨e, ex, hex, hcommitted, hid⟩
    refine ⟨e, ⟨ex, hex, upserted_of_committed hcommitted, hid⟩, ?_⟩
    refine Bool.eq_false_of_not_eq_true fun hfailed => ?_
    rw [hs.failed e ex hfailed hex] at hcommitted
    cases hcommitted
  · rintro ⟨e, ⟨ex, hex, -, hid⟩, hnot⟩
    refine ⟨e, ex, hex, ?_, hid⟩
    rcases hidle e ex hex with hreturned | hfailed
    · exact hreturned
    · rw [hnot] at hfailed
      cases hfailed

/-- When no execution is running, a vector is without a row exactly if every execution that
wrote it has raised, and a search drops exactly the matches that no completed execution wrote. -/
theorem orphan_iff (embed : String → List β) (tasks : List IngestTask) {acts : List (Action τ)}
    {s : Attempts β τ} (hrun : Runs.run (step embed tasks) start acts = some s) (hidle : s.Idle) :
    (∀ id, (s.pipeline.stores.vectors id).isSome ∧ ¬HasRow s.pipeline.stores id ↔
      (∃ e, WrittenBy upserted s.pipeline e id) ∧
        ∀ e, WrittenBy upserted s.pipeline e id → s.failed e = true) ∧
    ∀ (hits : List (QueryHit β ν)) (rows : List SelectedClause),
      Selects s.pipeline.stores (hits.map QueryHit.id) rows → ∀ hit ∈ hits,
        ((hit.id, hit.score) ∉ (searchSimilarClauses hits rows).map
            (fun result => (result.clause.clauseId, result.score)) ↔
          ∀ e, WrittenBy upserted s.pipeline e hit.id → s.failed e = true) := by
  have hs := inv_run hrun
  have hno : ∀ id, ¬HasRow s.pipeline.stores id ↔
      ∀ e, WrittenBy upserted s.pipeline e id → s.failed e = true := by
    intro id
    rw [hs.hasRow_iff hidle]
    simp
  constructor
  · intro id
    rw [hs.accounted.vectors, hno]
  · intro hits rows hrows hit hhit
    rw [mem_searchSimilarClauses_iff hrows hhit, hno]

/-- The row transaction of the only execution raises: both of its vectors are left without a
row, and a match for one of them is dropped. -/
theorem raise_leaves_orphan :
    let task := ingestTask (parseEntry sampleSha1 sampleEntry)
    let id := "15db50f7a0616bf4-f3c36fe176"
    let hit : QueryHit ℕ ℕ := ⟨id, 1, .empty⟩
    let acts : List (Action ℕ) := [.begin 0 task, .step 0 1, .step 0 2, .step 0 3, .raises 0]
    ∃ s : Attempts ℕ ℕ, Runs.run (step (fun text => [text.length]) [task]) start acts = some s ∧
      s.Idle ∧ (s.pipeline.stores.vectors id).isSome ∧ ¬HasRow s.pipeline.stores id ∧
      Selects s.pipeline.stores [id] [] ∧ searchSimilarClauses [hit] [] = [] := by
  intro task id hit acts
  refine ⟨_, rfl, ?_, rfl, ?_, ⟨List.nodup_nil, ?_⟩, rfl⟩
  · intro e ex h
    by_cases he : e = 0
    · subst he
      exact Or.inr rfl
    · simp [start, Pipeline.start, he] at h
  · rintro ⟨cid, hsome⟩
    cases hsome
  · intro row
    constructor
    · intro hrow
      cases hrow
    · rintro ⟨-, stored, hstored, -⟩
      cases hstored

/-- The execution that raises is followed by one of the same task that completes. -/
theorem orphan_iff_retried :
    let task := ingestTask (parseEntry sampleSha1 sampleEntry)
    let acts : List (Action ℕ) :=
      [.begin 0 task, .step 0 1, .step 0 2, .step 0 3, .raises 0, .begin 1 task, .step 1 4,
        .step 1 5, .step 1 6, .step 1 7]
    ∃ s : Attempts ℕ ℕ, Runs.run (step (fun text => [text.length]) [task]) start acts = some s ∧
      s.Idle ∧ ∀ id, (s.pipeline.stores.vectors id).isSome → HasRow s.pipeline.stores id := by
  intro task acts
  obtain ⟨s, hrun, hended, hlast, hnot⟩ : ∃ s : Attempts ℕ ℕ,
      Runs.run (step (fun text => [text.length]) [task]) start acts = some s ∧
      (∀ e ex, s.pipeline.executions e = some ex →
        ex.task = task ∧ (ex.returned.isSome ∨ s.failed e = true)) ∧
      s.pipeline.executions 1 = some ⟨task, .done⟩ ∧ s.failed 1 = false := by
    refine ⟨_, rfl, ?_, rfl, rfl⟩
    intro e ex h
    by_cases he : e = 0
    · subst he
      cases h
      exact ⟨rfl, Or.inr rfl⟩
    · by_cases he' : e = 1
      · subst he'
        cases h
        exact ⟨rfl, Or.inl rfl⟩
      · simp [start, Pipeline.start, he, he'] at h
  have hidle : s.Idle := fun e ex h => (hended e ex h).2
  refine ⟨s, hrun, hidle, fun id hvector => ?_⟩
  by_contra hno
  obtain ⟨⟨e, ex, hex, -, hid⟩, hfailed⟩ :=
    ((@orphan_iff ℕ ℕ ℕ _ _ acts s hrun hidle).1 id).mp ⟨hvector, hno⟩
  have hretried : WrittenBy upserted s.pipeline 1 id := by
    rw [clauseIds, (hended e ex hex).1] at hid
    exact ⟨_, hlast, rfl, hid⟩
  rw [hfailed 1 hretried] at hnot
  cases hnot

end Attempts

end LegalLens.Retrieval
