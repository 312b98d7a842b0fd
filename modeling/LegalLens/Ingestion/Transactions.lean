import LegalLens.Ingestion.IngestHandler
import LegalLens.Ingestion.ParsedClauses
import LegalLens.Library.RowLocks

/-!
# The transactions of the ingest handler

`session()` commits when its block ends and rolls back when the block raises. The statements of
`handle_ingest_contract` run in two such blocks, and those of several workers interleave on the
rows of the two tables, where PostgreSQL locks each row that is written until the end of the
transaction. Nothing can be observed of this: every execution is one in which each block takes
effect at once.
-/

namespace LegalLens.Ingestion

open RowLocks

variable {β τ : Type*}

/-- The parameters of `INSERT INTO contracts`. -/
structure ContractStatement (τ : Type*) where
  contractId : String
  filename : String
  now : τ

def ContractStatement.row (st : ContractStatement τ) (_ : Option (ContractRow τ)) :
    ContractRow τ :=
  ⟨st.filename, st.now⟩

structure ClauseStatement (τ : Type*) where
  contractId : String
  clause : ParsedClause
  now : τ

def ClauseStatement.key (st : ClauseStatement τ) : String × String :=
  (st.contractId, st.clause.clauseId)

def ClauseStatement.row (st : ClauseStatement τ) : Option (ClauseRow τ) → ClauseRow τ
  | none => ⟨st.clause.category, st.clause.text, none, none, st.clause.clauseId, st.now⟩
  | some row => { row with
      text := st.clause.text, vectorId := st.clause.clauseId, embeddedAt := st.now }

theorem Stores.upsertClause_eq (cid : String) (now : τ) (s : Stores β τ) (c : ParsedClause) :
    s.upsertClause cid now c = { s with
      clauses := execute ClauseStatement.key ClauseStatement.row s.clauses ⟨cid, c, now⟩ } := by
  unfold upsertClause RowLocks.execute
  cases h : s.clauses (cid, c.clauseId) <;> simp [ClauseStatement.key, ClauseStatement.row, h]

theorem Stores.upsertClauses_eq (s : Stores β τ) (cid : String) (clauses : List ParsedClause)
    (now : τ) :
    s.upsertClauses cid clauses now = { s with
      clauses := executeAll ClauseStatement.key ClauseStatement.row s.clauses
        (clauses.map fun c => ⟨cid, c, now⟩) } := by
  unfold upsertClauses
  induction clauses using List.reverseRecOn with
  | nil => rfl
  | append_singleton clauses c ih =>
    rw [List.foldl_concat, ih, upsertClause_eq, List.map_append, List.map_singleton,
      executeAll_concat]

/-- The two tables with their open transactions, the vector store, and the executions begun so
far with those that have raised. -/
structure Workload (β τ : Type*) where
  contracts : Table (ContractStatement τ) String (ContractRow τ) ℕ
  clauses : Table (ClauseStatement τ) (String × String) (ClauseRow τ) ℕ
  vectors : String → Option (List β × VectorMetadata)
  executions : ℕ → Option (Execution β)
  raised : ℕ → Bool

namespace Workload

inductive Action (τ : Type*) where
  /-- A worker begins an execution of a task. -/
  | begin (e : ℕ) (task : IngestTask)
  /-- `async with session()`. -/
  | enter (e : ℕ) (now : τ)
  /-- The next statement of a block. -/
  | execute (e : ℕ)
  /-- The end of a block. -/
  | commit (e : ℕ)
  /-- The embedding or the vector upsert. -/
  | work (e : ℕ)
  /-- An exception at any point, or the end of the worker: the open transaction is rolled back. -/
  | raise (e : ℕ)

def start : Workload β τ :=
  ⟨.start fun _ => none, .start fun _ => none, fun _ => none, fun _ => none, fun _ => false⟩

def stepContracts (t : Table (ContractStatement τ) String (ContractRow τ) ℕ) :
    RowLocks.Action (ContractStatement τ) ℕ →
      Option (Table (ContractStatement τ) String (ContractRow τ) ℕ) :=
  t.step ContractStatement.contractId ContractStatement.row

def stepClauses (t : Table (ClauseStatement τ) (String × String) (ClauseRow τ) ℕ) :
    RowLocks.Action (ClauseStatement τ) ℕ →
      Option (Table (ClauseStatement τ) (String × String) (ClauseRow τ) ℕ) :=
  t.step ClauseStatement.key ClauseStatement.row

/-- The statements of the first block. -/
def contractLoop (payload : ParsedContract) (now : τ) : List (ContractStatement τ) :=
  [⟨payload.contractId, payload.filename, now⟩]

/-- The statements of the second block. -/
def clauseLoop (payload : ParsedContract) (now : τ) : List (ClauseStatement τ) :=
  payload.clauses.map fun c => ⟨payload.contractId, c, now⟩

def running (s : Workload β τ) (e : ℕ) : Option (Execution β) :=
  if s.raised e then none else s.executions e

def advance (s : Workload β τ) (e : ℕ) (task : IngestTask) (stage : Stage β) : Workload β τ :=
  { s with executions := Function.update s.executions e (some ⟨task, stage⟩) }

def step (embed : String → List β) (tasks : List IngestTask) (s : Workload β τ) :
    Action τ → Option (Workload β τ)
  | .begin e task =>
    if tasks.contains task ∧ (s.executions e).isNone then
      some (s.advance e task .contract)
    else none
  | .enter e now =>
    match s.running e with
    | some ⟨task, .contract⟩ =>
      (stepContracts s.contracts (.begin e (contractLoop task.payload now))).map fun t =>
        { s with contracts := t }
    | some ⟨task, .rows⟩ =>
      (stepClauses s.clauses (.begin e (clauseLoop task.payload now))).map fun t =>
        { s with clauses := t }
    | _ => none
  | .execute e =>
    match s.running e with
    | some ⟨_, .contract⟩ =>
      (stepContracts s.contracts (.execute e)).map fun t => { s with contracts := t }
    | some ⟨_, .rows⟩ =>
      (stepClauses s.clauses (.execute e)).map fun t => { s with clauses := t }
    | _ => none
  | .commit e =>
    match s.running e with
    | some ⟨task, .contract⟩ =>
      (stepContracts s.contracts (.commit e)).map fun t =>
        { s with contracts := t }.advance e task
          (if task.payload.clauses = [] then .done else .embed)
    | some ⟨task, .rows⟩ =>
      (stepClauses s.clauses (.commit e)).map fun t => { s with clauses := t }.advance e task .done
    | _ => none
  | .work e =>
    match s.running e with
    | some ⟨task, .embed⟩ =>
      some (s.advance e task (.vectors (task.payload.clauses.map fun c => embed c.text)))
    | some ⟨task, .vectors embedded⟩ =>
      let records := Stores.vectorRecords task.payload.contractId task.payload.clauses embedded
      some ({ s with vectors := KeyedWrites.writeAll s.vectors records }.advance e task .rows)
    | _ => none
  | .raise e =>
    match s.running e with
    | some _ => some { s with
        contracts := s.contracts.rollback e
        clauses := s.clauses.rollback e
        raised := Function.update s.raised e true }
    | none => none

/-- What anybody else can see. -/
def stores (s : Workload β τ) : Stores β τ :=
  ⟨s.contracts.committed, s.clauses.committed, s.vectors⟩

/-- The same as `step`, one case for each way to go on. -/
inductive Step (embed : String → List β) (tasks : List IngestTask) (s : Workload β τ) :
    Action τ → Workload β τ → Prop
  | begin {e : ℕ} {task : IngestTask} (htask : task ∈ tasks) (he : s.executions e = none) :
      Step embed tasks s (.begin e task) (s.advance e task .contract)
  | enterContracts {e : ℕ} {now : τ} {task : IngestTask}
      {t : Table (ContractStatement τ) String (ContractRow τ) ℕ}
      (he : s.running e = some ⟨task, .contract⟩)
      (ht : stepContracts s.contracts (.begin e (contractLoop task.payload now)) = some t) :
      Step embed tasks s (.enter e now) { s with contracts := t }
  | enterClauses {e : ℕ} {now : τ} {task : IngestTask}
      {t : Table (ClauseStatement τ) (String × String) (ClauseRow τ) ℕ}
      (he : s.running e = some ⟨task, .rows⟩)
      (ht : stepClauses s.clauses (.begin e (clauseLoop task.payload now)) = some t) :
      Step embed tasks s (.enter e now) { s with clauses := t }
  | executeContract {e : ℕ} {task : IngestTask}
      {t : Table (ContractStatement τ) String (ContractRow τ) ℕ}
      (he : s.running e = some ⟨task, .contract⟩)
      (ht : stepContracts s.contracts (.execute e) = some t) :
      Step embed tasks s (.execute e) { s with contracts := t }
  | executeClause {e : ℕ} {task : IngestTask}
      {t : Table (ClauseStatement τ) (String × String) (ClauseRow τ) ℕ}
      (he : s.running e = some ⟨task, .rows⟩)
      (ht : stepClauses s.clauses (.execute e) = some t) :
      Step embed tasks s (.execute e) { s with clauses := t }
  | commitContracts {e : ℕ} {task : IngestTask}
      {t : Table (ContractStatement τ) String (ContractRow τ) ℕ}
      (he : s.running e = some ⟨task, .contract⟩)
      (ht : stepContracts s.contracts (.commit e) = some t) :
      Step embed tasks s (.commit e) ({ s with contracts := t }.advance e task
        (if task.payload.clauses = [] then .done else .embed))
  | commitClauses {e : ℕ} {task : IngestTask}
      {t : Table (ClauseStatement τ) (String × String) (ClauseRow τ) ℕ}
      (he : s.running e = some ⟨task, .rows⟩)
      (ht : stepClauses s.clauses (.commit e) = some t) :
      Step embed tasks s (.commit e) ({ s with clauses := t }.advance e task .done)
  | embed {e : ℕ} {task : IngestTask} (he : s.running e = some ⟨task, .embed⟩) :
      Step embed tasks s (.work e)
        (s.advance e task (.vectors (task.payload.clauses.map fun c => embed c.text)))
  | vectors {e : ℕ} {task : IngestTask} {embedded : List (List β)}
      (he : s.running e = some ⟨task, .vectors embedded⟩) :
      Step embed tasks s (.work e) ({ s with
        vectors := KeyedWrites.writeAll s.vectors (Stores.vectorRecords task.payload.contractId
          task.payload.clauses embedded) }.advance e task .rows)
  | raise {e : ℕ} {ex : Execution β} (he : s.running e = some ex) :
      Step embed tasks s (.raise e) { s with
        contracts := s.contracts.rollback e
        clauses := s.clauses.rollback e
        raised := Function.update s.raised e true }

variable {embed : String → List β} {tasks : List IngestTask} {s u : Workload β τ} {a : Action τ}

theorem step_of_eq_some (h : s.step embed tasks a = some u) : Step embed tasks s a u := by
  cases a with
  | begin e task =>
    simp only [step] at h
    split_ifs at h with hok
    cases h
    exact .begin (List.contains_iff_mem.mp hok.1) (Option.isNone_iff_eq_none.mp hok.2)
  | enter e now =>
    simp only [step] at h
    split at h
    next task he =>
      obtain ⟨t, ht, rfl⟩ := Option.map_eq_some_iff.mp h
      exact .enterContracts he ht
    next task he =>
      obtain ⟨t, ht, rfl⟩ := Option.map_eq_some_iff.mp h
      exact .enterClauses he ht
    · cases h
  | execute e =>
    simp only [step] at h
    split at h
    next task he =>
      obtain ⟨t, ht, rfl⟩ := Option.map_eq_some_iff.mp h
      exact .executeContract he ht
    next task he =>
      obtain ⟨t, ht, rfl⟩ := Option.map_eq_some_iff.mp h
      exact .executeClause he ht
    · cases h
  | commit e =>
    simp only [step] at h
    split at h
    next task he =>
      obtain ⟨t, ht, rfl⟩ := Option.map_eq_some_iff.mp h
      exact .commitContracts he ht
    next task he =>
      obtain ⟨t, ht, rfl⟩ := Option.map_eq_some_iff.mp h
      exact .commitClauses he ht
    · cases h
  | work e =>
    simp only [step] at h
    split at h <;> cases h
    next task he => exact .embed he
    next task embedded he => exact .vectors he
  | raise e =>
    simp only [step] at h
    split at h <;> cases h
    next ex he => exact .raise he

theorem executions_of_running {e : ℕ} {ex : Execution β} (h : s.running e = some ex) :
    s.raised e = false ∧ s.executions e = some ex := by
  unfold running at h
  split_ifs at h with hraised
  exact ⟨Bool.eq_false_iff.mpr hraised, h⟩

theorem running_advance {e e' : ℕ} (hne : e' ≠ e) (task : IngestTask) (stage : Stage β) :
    (s.advance e task stage).running e' = s.running e' := by
  simp [running, advance, hne]

/-- An open session belongs to a running execution at the start of the block and has the
statements of the block. -/
structure Inv (s : Workload β τ) : Prop where
  contracts : s.contracts.Inv ContractStatement.contractId ContractStatement.row
  clauses : s.clauses.Inv ClauseStatement.key ClauseStatement.row
  inContracts : ∀ e session, s.contracts.sessions e = some session → ∃ task now,
    s.running e = some ⟨task, .contract⟩ ∧ session.loop = contractLoop task.payload now
  inClauses : ∀ e session, s.clauses.sessions e = some session → ∃ task now,
    s.running e = some ⟨task, .rows⟩ ∧ session.loop = clauseLoop task.payload now

theorem inv_start : (start : Workload β τ).Inv :=
  ⟨Table.inv_start .., Table.inv_start .., (fun _ _ h => nomatch h), (fun _ _ h => nomatch h)⟩

theorem Inv.sessions_contracts (hs : s.Inv) {e : ℕ}
    (he : ∀ task, s.running e ≠ some ⟨task, .contract⟩) : s.contracts.sessions e = none := by
  by_contra hopen
  obtain ⟨session, hsession⟩ := Option.ne_none_iff_exists'.mp hopen
  obtain ⟨task, -, hrunning, -⟩ := hs.inContracts e session hsession
  exact he task hrunning

theorem Inv.sessions_clauses (hs : s.Inv) {e : ℕ}
    (he : ∀ task, s.running e ≠ some ⟨task, .rows⟩) : s.clauses.sessions e = none := by
  by_contra hopen
  obtain ⟨session, hsession⟩ := Option.ne_none_iff_exists'.mp hopen
  obtain ⟨task, -, hrunning, -⟩ := hs.inClauses e session hsession
  exact he task hrunning

theorem Inv.advance (hs : s.Inv) {e : ℕ} (hcontracts : s.contracts.sessions e = none)
    (hclauses : s.clauses.sessions e = none) (task : IngestTask) (stage : Stage β) :
    (s.advance e task stage).Inv := by
  refine ⟨hs.contracts, hs.clauses, fun e' session hsession => ?_, fun e' session hsession => ?_⟩
  · have hne : e' ≠ e := by
      rintro rfl
      exact absurd (hsession.symm.trans hcontracts) (by simp)
    rw [running_advance hne]
    exact hs.inContracts e' session hsession
  · have hne : e' ≠ e := by
      rintro rfl
      exact absurd (hsession.symm.trans hclauses) (by simp)
    rw [running_advance hne]
    exact hs.inClauses e' session hsession

theorem Inv.stepContracts (hs : s.Inv) {b : RowLocks.Action (ContractStatement τ) ℕ}
    {t : Table (ContractStatement τ) String (ContractRow τ) ℕ}
    (ht : Workload.stepContracts s.contracts b = some t)
    (hbegin : ∀ e loop, b = .begin e loop → ∃ task now,
      s.running e = some ⟨task, .contract⟩ ∧ loop = contractLoop task.payload now) :
    Inv { s with contracts := t } := by
  refine ⟨Table.inv_step hs.contracts ht, hs.clauses, fun e session hsession => ?_, hs.inClauses⟩
  rcases Table.loop_of_step ht hsession with rfl | ⟨before, hbefore, hloop⟩
  · exact hbegin e session.loop rfl
  · rw [← hloop]
    exact hs.inContracts e before hbefore

theorem Inv.stepClauses (hs : s.Inv) {b : RowLocks.Action (ClauseStatement τ) ℕ}
    {t : Table (ClauseStatement τ) (String × String) (ClauseRow τ) ℕ}
    (ht : Workload.stepClauses s.clauses b = some t)
    (hbegin : ∀ e loop, b = .begin e loop → ∃ task now,
      s.running e = some ⟨task, .rows⟩ ∧ loop = clauseLoop task.payload now) :
    Inv { s with clauses := t } := by
  refine ⟨hs.contracts, Table.inv_step hs.clauses ht, hs.inContracts, fun e session hsession => ?_⟩
  rcases Table.loop_of_step ht hsession with rfl | ⟨before, hbefore, hloop⟩
  · exact hbegin e session.loop rfl
  · rw [← hloop]
    exact hs.inClauses e before hbefore

theorem Inv.raise (hs : s.Inv) (e : ℕ) :
    Inv { s with
      contracts := s.contracts.rollback e
      clauses := s.clauses.rollback e
      raised := Function.update s.raised e true } := by
  refine ⟨hs.contracts.rollback e, hs.clauses.rollback e, fun e' session hsession => ?_,
    fun e' session hsession => ?_⟩
  · obtain ⟨hne, hsession⟩ := KeyedWrites.update_none_eq_some_iff.mp hsession
    obtain ⟨task, now, hrunning, hloop⟩ := hs.inContracts e' session hsession
    refine ⟨task, now, ?_, hloop⟩
    rw [← hrunning]
    simp [running, hne]
  · obtain ⟨hne, hsession⟩ := KeyedWrites.update_none_eq_some_iff.mp hsession
    obtain ⟨task, now, hrunning, hloop⟩ := hs.inClauses e' session hsession
    refine ⟨task, now, ?_, hloop⟩
    rw [← hrunning]
    simp [running, hne]

theorem inv_step (hs : s.Inv) (h : s.step embed tasks a = some u) : u.Inv := by
  cases step_of_eq_some h with
  | @begin e task htask he =>
    have hnone : ∀ ex, s.running e ≠ some ex := by
      intro ex hrunning
      rw [(executions_of_running hrunning).2] at he
      cases he
    exact hs.advance (hs.sessions_contracts fun _ => hnone _) (hs.sessions_clauses fun _ => hnone _)
      _ _
  | @enterContracts e now task t he ht =>
    refine hs.stepContracts ht fun e' loop heq => ?_
    cases heq
    exact ⟨task, now, he, rfl⟩
  | @enterClauses e now task t he ht =>
    refine hs.stepClauses ht fun e' loop heq => ?_
    cases heq
    exact ⟨task, now, he, rfl⟩
  | executeContract he ht => exact hs.stepContracts ht (by simp)
  | executeClause he ht => exact hs.stepClauses ht (by simp)
  | @commitContracts e task t he ht =>
    have hclauses := hs.sessions_clauses (e := e) (by simp [he])
    exact (hs.stepContracts ht (by simp)).advance (Table.sessions_of_end (Or.inl rfl) ht) hclauses
      _ _
  | @commitClauses e task t he ht =>
    have hcontracts := hs.sessions_contracts (e := e) (by simp [he])
    exact (hs.stepClauses ht (by simp)).advance hcontracts
      (Table.sessions_of_end (Or.inl rfl) ht) _ _
  | @embed e task he =>
    exact hs.advance (hs.sessions_contracts (by simp [he])) (hs.sessions_clauses (by simp [he])) _ _
  | @vectors e task embedded he =>
    have hs' : Inv { s with
        vectors := KeyedWrites.writeAll s.vectors (Stores.vectorRecords task.payload.contractId
          task.payload.clauses embedded) } :=
      ⟨hs.contracts, hs.clauses, hs.inContracts, hs.inClauses⟩
    exact hs'.advance (hs.sessions_contracts (by simp [he])) (hs.sessions_clauses (by simp [he]))
      _ _
  | raise he => exact hs.raise _

section Refinement

def pipeline (s : Workload β τ) : Pipeline β τ := ⟨s.stores, s.executions⟩

theorem pipeline_step {e : ℕ} {now : τ} {ex ex' : Execution β} {stores : Stores β τ}
    (he : s.executions e = some ex) (hstep : ex.step embed now s.stores = some (ex', stores)) :
    Runs.run (Pipeline.step embed tasks) s.pipeline [.step e now] =
      some ⟨stores, Function.update s.executions e (some ex')⟩ := by
  simp [Runs.run, Pipeline.step, pipeline, he, hstep]

/-- Every step is a step of whole blocks or none. -/
theorem refine_step [Inhabited τ] (hs : s.Inv) (h : s.step embed tasks a = some u) :
    ∃ acts, Runs.run (Pipeline.step embed tasks) s.pipeline acts = some u.pipeline := by
  cases step_of_eq_some h with
  | @begin e task htask he =>
    refine ⟨[.begin e task], ?_⟩
    simp [Runs.run, Pipeline.step, pipeline, htask, he, advance, stores]
  | enterContracts he ht =>
    refine ⟨[], ?_⟩
    simp [pipeline, stores, Table.committed_of_ne_commit ht]
  | enterClauses he ht =>
    refine ⟨[], ?_⟩
    simp [pipeline, stores, Table.committed_of_ne_commit ht]
  | executeContract he ht =>
    refine ⟨[], ?_⟩
    simp [pipeline, stores, Table.committed_of_ne_commit ht]
  | executeClause he ht =>
    refine ⟨[], ?_⟩
    simp [pipeline, stores, Table.committed_of_ne_commit ht]
  | @commitContracts e task t he ht =>
    obtain ⟨session, hsession, hcommitted⟩ := Table.committed_of_commit hs.contracts ht
    obtain ⟨task', now, hrunning, hloop⟩ := hs.inContracts e session hsession
    rw [he] at hrunning
    cases hrunning
    refine ⟨[.step e now], (pipeline_step (executions_of_running he).2 rfl).trans ?_⟩
    simp only [pipeline, stores, Workload.advance, hcommitted, hloop]
    rfl
  | @commitClauses e task t he ht =>
    obtain ⟨session, hsession, hcommitted⟩ := Table.committed_of_commit hs.clauses ht
    obtain ⟨task', now, hrunning, hloop⟩ := hs.inClauses e session hsession
    rw [he] at hrunning
    cases hrunning
    refine ⟨[.step e now], (pipeline_step (executions_of_running he).2 rfl).trans ?_⟩
    simp only [pipeline, stores, Workload.advance, hcommitted, hloop, Stores.upsertClauses_eq]
    rfl
  | embed he => exact ⟨[.step _ default], pipeline_step (executions_of_running he).2 rfl⟩
  | vectors he => exact ⟨[.step _ default], pipeline_step (executions_of_running he).2 rfl⟩
  | raise he => exact ⟨[], rfl⟩

/-- Whatever the interleaving of statements, and whichever blocks are rolled back, what has been
committed and where the executions are could also have come about with every block of an
execution taking effect at once, at its commit. -/
theorem blocks_atomic [Inhabited τ] (embed : String → List β) (tasks : List IngestTask)
    (acts : List (Action τ)) (s : Workload β τ)
    (hrun : Runs.run (step embed tasks) start acts = some s) :
    ∃ acts', Runs.run (Pipeline.step embed tasks) Pipeline.start acts' =
      some (⟨s.stores, s.executions⟩ : Pipeline β τ) := by
  have hsim : ∀ (t : Workload β τ) a u (p : Pipeline β τ), t.Inv ∧ p = t.pipeline →
      step embed tasks t a = some u → ∃ bs q, Runs.run (Pipeline.step embed tasks) p bs = some q ∧
        u.Inv ∧ q = u.pipeline := by
    rintro t a u - ⟨ht, rfl⟩ hstep
    obtain ⟨bs, hbs⟩ := refine_step ht hstep
    exact ⟨bs, _, hbs, inv_step ht hstep, rfl⟩
  have hstart : (start : Workload β τ).Inv ∧ Pipeline.start = (start : Workload β τ).pipeline :=
    ⟨inv_start, rfl⟩
  obtain ⟨acts', p, hacts', -, rfl⟩ := Runs.exists_run_of_simulation hsim hstart hrun
  exact ⟨acts', hacts'⟩

/-- One of two executions of a task raises in its second block, and the other one goes on. -/
theorem blocks_atomic_raised :
    let payload : ParsedContract := ⟨"c", "a.pdf",
      [⟨"c-1", "c", "parties", "Acme", none⟩, ⟨"c-2", "c", "governing_law", "Delaware", none⟩]⟩
    let task := ingestTask payload
    let embed := fun text : String => [text.length]
    let acts : List (Action ℕ) :=
      [.begin 0 task, .begin 1 task, .enter 0 1, .execute 0, .commit 0, .work 0, .work 0,
        .enter 1 2, .enter 0 3, .execute 0, .execute 1, .commit 1, .raise 0, .work 1, .work 1,
        .enter 1 4, .execute 1, .execute 1, .commit 1]
    ∃ s, Runs.run (step embed [task]) start acts = some s ∧
      ∃ acts', Runs.run (Pipeline.step embed [task]) Pipeline.start acts' =
        some (⟨s.stores, s.executions⟩ : Pipeline ℕ ℕ) := by
  intro payload task embed acts
  have hrun : (Runs.run (step embed [task]) start acts).isSome := by decide +kernel
  obtain ⟨s, hs⟩ := Option.isSome_iff_exists.mp hrun
  exact ⟨s, hs, blocks_atomic embed [task] acts s hs⟩

end Refinement

section Waiting

structure Begun (tasks : List IngestTask) (s : Workload β τ) : Prop where
  mem : ∀ e ex, s.executions e = some ex → ex.task ∈ tasks
  finite : ∃ ids : Finset ℕ, ∀ e, s.executions e ≠ none → e ∈ ids

theorem Begun.of_update (hs : s.Begun tasks) {e : ℕ} {task : IngestTask} {stage : Stage β}
    (htask : task ∈ tasks)
    (hu : u.executions = Function.update s.executions e (some ⟨task, stage⟩)) :
    u.Begun tasks := by
  obtain ⟨ids, hids⟩ := hs.finite
  refine ⟨fun e' ex hex => ?_, insert e ids, fun e' hne => ?_⟩
  · rw [hu, KeyedWrites.update_eq_some_iff] at hex
    rcases hex with ⟨-, rfl⟩ | ⟨-, hex⟩
    · exact htask
    · exact hs.mem e' ex hex
  · rcases eq_or_ne e' e with rfl | hne'
    · exact Finset.mem_insert_self ..
    · rw [hu, Function.update_of_ne hne'] at hne
      exact Finset.mem_insert_of_mem (hids e' hne)

theorem begun_step (hs : s.Begun tasks) (h : s.step embed tasks a = some u) : u.Begun tasks := by
  have hmem : ∀ {e : ℕ} {task : IngestTask} {stage : Stage β}, s.running e = some ⟨task, stage⟩ →
      task ∈ tasks :=
    fun he => hs.mem _ _ (executions_of_running he).2
  cases step_of_eq_some h with
  | begin htask he => exact hs.of_update htask rfl
  | commitContracts he | commitClauses he | embed he | vectors he =>
    exact hs.of_update (hmem he) rfl
  | enterContracts | enterClauses | executeContract | executeClause | raise =>
    exact ⟨hs.mem, hs.finite⟩

theorem Inv.executions_of_contracts (hs : s.Inv) {e : ℕ} (he : s.contracts.sessions e ≠ none) :
    s.executions e ≠ none := by
  obtain ⟨session, hsession⟩ := Option.ne_none_iff_exists'.mp he
  obtain ⟨task, now, hrunning, -⟩ := hs.inContracts e session hsession
  simp [(executions_of_running hrunning).2]

theorem Inv.executions_of_clauses (hs : s.Inv) {e : ℕ} (he : s.clauses.sessions e ≠ none) :
    s.executions e ≠ none := by
  obtain ⟨session, hsession⟩ := Option.ne_none_iff_exists'.mp he
  obtain ⟨task, now, hrunning, -⟩ := hs.inClauses e session hsession
  simp [(executions_of_running hrunning).2]

def GoesOn (a : Action τ) : Prop := ∃ e, a = .execute e ∨ a = .commit e

theorem contracts_goesOn (embed : String → List β) (tasks : List IngestTask) (hs : s.Inv) {e : ℕ}
    {b : RowLocks.Action (ContractStatement τ) ℕ} (hb : b ∈ [.execute e, .commit e])
    {t : Table (ContractStatement τ) String (ContractRow τ) ℕ}
    (ht : stepContracts s.contracts b = some t) :
    ∃ a u, GoesOn a ∧ s.step embed tasks a = some u ∧ u.contracts = t := by
  obtain ⟨session, hsession⟩ := Table.exists_session hb ht
  obtain ⟨task, now, hrunning, -⟩ := hs.inContracts e session hsession
  rcases List.mem_pair.mp hb with rfl | rfl
  · refine ⟨.execute e, { s with contracts := t }, ⟨e, Or.inl rfl⟩, ?_, rfl⟩
    simp [step, hrunning, ht]
  · refine ⟨.commit e, { s with contracts := t }.advance e task
      (if task.payload.clauses = [] then .done else .embed), ⟨e, Or.inr rfl⟩, ?_, rfl⟩
    simp [step, hrunning, ht]

theorem clauses_goesOn (embed : String → List β) (tasks : List IngestTask) (hs : s.Inv) {e : ℕ}
    {b : RowLocks.Action (ClauseStatement τ) ℕ} (hb : b ∈ [.execute e, .commit e])
    {t : Table (ClauseStatement τ) (String × String) (ClauseRow τ) ℕ}
    (ht : stepClauses s.clauses b = some t) :
    ∃ a u, GoesOn a ∧ s.step embed tasks a = some u ∧ u.clauses = t ∧
      u.contracts = s.contracts := by
  obtain ⟨session, hsession⟩ := Table.exists_session hb ht
  obtain ⟨task, now, hrunning, -⟩ := hs.inClauses e session hsession
  rcases List.mem_pair.mp hb with rfl | rfl
  · refine ⟨.execute e, { s with clauses := t }, ⟨e, Or.inl rfl⟩, ?_, rfl, rfl⟩
    simp [step, hrunning, ht]
  · refine ⟨.commit e, { s with clauses := t }.advance e task .done, ⟨e, Or.inr rfl⟩, ?_, rfl, rfl⟩
    simp [step, hrunning, ht]

/-- Tasks of one contract have the same clauses in the same order. -/
def SameClauses (tasks : List IngestTask) : Prop :=
  ∀ t ∈ tasks, ∀ t' ∈ tasks, t.payload.contractId = t'.payload.contractId →
    t.payload.clauses.map ParsedClause.clauseId = t'.payload.clauses.map ParsedClause.clauseId

/-- The place of a row among the rows of its contract. -/
def rowRank (tasks : List IngestTask) (row : String × String) : ℕ :=
  match tasks.find? fun task => task.payload.contractId = row.1 with
  | none => 0
  | some task => (task.payload.clauses.map ParsedClause.clauseId).idxOf row.2

theorem rowRank_of_mem (hsame : SameClauses tasks) {task : IngestTask} (htask : task ∈ tasks)
    (id : String) : rowRank tasks (task.payload.contractId, id) =
      (task.payload.clauses.map ParsedClause.clauseId).idxOf id := by
  unfold rowRank
  cases hfind : tasks.find? fun task' => task'.payload.contractId = task.payload.contractId with
  | none => simpa using List.find?_eq_none.mp hfind task htask
  | some task' =>
    have hcid : task'.payload.contractId = task.payload.contractId := by
      simpa using List.find?_some hfind
    simp only
    rw [hsame task' (List.mem_of_find?_eq_some hfind) task htask hcid]

/-- The rows of a block are first locked in the order of the rows of their contract. -/
theorem ordered_clauses (hsame : SameClauses tasks) (hs : s.Inv) (hbegun : s.Begun tasks) :
    s.clauses.Ordered ClauseStatement.key (rowRank tasks) := by
  intro e session hsession pre st post hloop
  obtain ⟨task, now, hrunning, hclauses⟩ := hs.inClauses e session hsession
  have htask : task ∈ tasks := hbegun.mem e _ (executions_of_running hrunning).2
  rw [hclauses, clauseLoop] at hloop
  obtain ⟨before, after, hsplit, rfl, hafter⟩ := List.map_eq_append_iff.mp hloop
  obtain ⟨c, rest, rfl, rfl, -⟩ := List.map_eq_cons_iff.mp hafter
  by_cases hmem : c.clauseId ∈ before.map ParsedClause.clauseId
  · obtain ⟨d, hd, hid⟩ := List.mem_map.mp hmem
    refine Or.inl ⟨_, List.mem_map_of_mem hd, ?_⟩
    simp [ClauseStatement.key, hid]
  · refine Or.inr fun st' hst' => ?_
    obtain ⟨d, hd, rfl⟩ := List.mem_map.mp hst'
    have hd' : d.clauseId ∈ before.map ParsedClause.clauseId := List.mem_map_of_mem hd
    simp only [ClauseStatement.key]
    rw [rowRank_of_mem hsame htask, rowRank_of_mem hsame htask, hsplit, List.map_append,
      List.map_cons, List.idxOf_append_of_mem hd', List.idxOf_append_of_notMem hmem,
      List.idxOf_cons_self]
    exact (List.idxOf_lt_length_of_mem hd').trans_le (Nat.le_add_right _ _)

theorem ordered_contracts (hs : s.Inv) :
    s.contracts.Ordered ContractStatement.contractId fun _ => 0 := by
  intro e session hsession pre st post hloop
  obtain ⟨task, now, -, hcontract⟩ := hs.inContracts e session hsession
  rw [hcontract, contractLoop] at hloop
  cases pre with
  | nil => exact Or.inr (by simp)
  | cons => simp at hloop

/-- In every reachable state, whatever has been interleaved or rolled back before, the open
blocks can all be ended by their statements and commits alone: PostgreSQL never has to abort one
of them for a deadlock. -/
theorem blocks_never_deadlock (embed : String → List β) (tasks : List IngestTask)
    (hsame : SameClauses tasks) (acts : List (Action τ)) (s : Workload β τ)
    (hrun : Runs.run (step embed tasks) start acts = some s) :
    ∃ more u, Runs.run (step embed tasks) s more = some u ∧ (∀ a ∈ more, GoesOn a) ∧
      ∀ e, u.contracts.sessions e = none ∧ u.clauses.sessions e = none := by
  have hs : s.Inv ∧ s.Begun tasks := by
    refine Runs.invariant (I := fun t : Workload β τ => t.Inv ∧ t.Begun tasks) ?_ ?_ hrun
    · intro t a v ht hstep
      exact ⟨inv_step ht.1 hstep, begun_step ht.2 hstep⟩
    · exact ⟨inv_start, (fun _ _ h => nomatch h), ∅, (fun _ h => absurd rfl h)⟩
  -- first the sessions on the contracts
  obtain ⟨ids, hids⟩ := hs.2.finite
  obtain ⟨bs, t, hbs, hclosed, hgoes⟩ :=
    Table.exists_run_to_end hs.1.contracts (ordered_contracts hs.1) ids fun e he =>
      hids e (hs.1.executions_of_contracts he)
  have hcontracts : ∀ (w : Workload β τ) b t, w.Inv ∧ w.Begun tasks →
      (∃ e, b ∈ [RowLocks.Action.execute e, .commit e]) → stepContracts w.contracts b = some t →
      ∃ a u, GoesOn a ∧ step embed tasks w a = some u ∧ u.contracts = t ∧
        u.Inv ∧ u.Begun tasks := by
    rintro w b t ⟨hw, hbegun⟩ ⟨e, hb⟩ ht
    obtain ⟨a, u, ha, hu, hut⟩ := contracts_goesOn embed tasks hw hb ht
    exact ⟨a, u, ha, hu, hut, inv_step hw hu, begun_step hbegun hu⟩
  obtain ⟨first, v, hfirst, rfl, hv, hfirstGoes⟩ :=
    Runs.exists_run_of_lift hcontracts hs hbs hgoes
  -- then those on the clauses
  obtain ⟨ids, hids⟩ := hv.2.finite
  obtain ⟨bs, t, hbs, hend, hgoes⟩ :=
    Table.exists_run_to_end hv.1.clauses (ordered_clauses hsame hv.1 hv.2) ids fun e he =>
      hids e (hv.1.executions_of_clauses he)
  have hclauses : ∀ (w : Workload β τ) b t, (w.Inv ∧ ∀ e, w.contracts.sessions e = none) →
      (∃ e, b ∈ [RowLocks.Action.execute e, .commit e]) → stepClauses w.clauses b = some t →
      ∃ a u, GoesOn a ∧ step embed tasks w a = some u ∧ u.clauses = t ∧
        u.Inv ∧ ∀ e, u.contracts.sessions e = none := by
    rintro w b t ⟨hw, hnone⟩ ⟨e, hb⟩ ht
    obtain ⟨a, u, ha, hu, hut, hkeep⟩ := clauses_goesOn embed tasks hw hb ht
    refine ⟨a, u, ha, hu, hut, inv_step hw hu, ?_⟩
    rwa [hkeep]
  obtain ⟨second, u, hsecond, rfl, hu, hsecondGoes⟩ :=
    Runs.exists_run_of_lift hclauses ⟨hv.1, hclosed⟩ hbs hgoes
  refine ⟨first ++ second, u, ?_, ?_, fun e => ⟨hu.2 e, hend e⟩⟩
  · rw [Runs.run_append, hfirst]
    exact hsecond
  · intro a ha
    rcases List.mem_append.mp ha with ha | ha
    · exact hfirstGoes a ha
    · exact hsecondGoes a ha

/-- Two workers carry out one task: one of them waits for the row that the other has locked. -/
theorem blocks_never_deadlock_retried :
    let payload : ParsedContract := ⟨"c", "a.pdf",
      [⟨"c-1", "c", "parties", "Acme", none⟩, ⟨"c-2", "c", "governing_law", "Delaware", none⟩]⟩
    let step := step (τ := ℕ) (fun text => [text.length]) [ingestTask payload]
    let acts : List (Action ℕ) :=
      [.begin 0 (ingestTask payload), .begin 1 (ingestTask payload),
        .enter 0 1, .execute 0, .commit 0, .work 0, .work 0, .enter 0 2,
        .enter 1 3, .execute 1, .commit 1, .work 1, .work 1, .enter 1 4, .execute 0]
    ∃ s, Runs.run step start acts = some s ∧ (step s (.execute 1)).isNone ∧
      ∃ more u, Runs.run step s more = some u ∧ (∀ a ∈ more, GoesOn a) ∧
        ∀ e, u.contracts.sessions e = none ∧ u.clauses.sessions e = none := by
  intro payload step acts
  have hrun : ((Runs.run step start acts).bind fun s =>
      if (step s (.execute 1)).isNone then some s else none).isSome := by
    decide +kernel
  obtain ⟨s, hs⟩ := Option.isSome_iff_exists.mp hrun
  obtain ⟨t, ht, hwaits⟩ := Option.bind_eq_some_iff.mp hs
  split_ifs at hwaits with hnone
  refine ⟨t, ht, hnone, blocks_never_deadlock _ _ ?_ acts t ht⟩
  intro a ha b hb _
  rw [List.mem_singleton.mp ha, List.mem_singleton.mp hb]

end Waiting

end Workload

end LegalLens.Ingestion
