import LegalLens.Ingestion.Convergence

/-!
# Ingestion by one process

The handler as the source writes it, from its first line to its last, and the stores that a
single process leaves after handling the tasks one after the other. The executions that are
taken step by step refine the plain function: uninterrupted, they end where it ends. What
the single process leaves is what concurrent executions are measured against.
-/

namespace LegalLens.Ingestion

variable {β τ : Type*}

section Handler

variable (embed : String → List β) (now : τ)

def handleIngestContract (s : Stores β τ) (task : IngestTask) : Stores β τ :=
  let payload := task.payload
  let s := s.upsertContract payload.contractId payload.filename now
  if payload.clauses = [] then s
  else
    let vectors := payload.clauses.map fun c => embed c.text
    let s := s.upsertVectors (Stores.vectorRecords payload.contractId payload.clauses vectors)
    s.upsertClauses payload.contractId payload.clauses now

/-- One process handles the tasks in the order of the list, from empty stores. -/
def ingestAll (tasks : List IngestTask) : Stores β τ :=
  tasks.foldl (handleIngestContract embed now) .empty

end Handler

def Execution.alone (embed : String → List β) (p : Execution β × Stores β τ) (now : τ) :
    Option (Execution β × Stores β τ) :=
  p.1.step embed now p.2

/-- An execution that is not interrupted computes the plain function. -/
theorem Execution.run_alone (embed : String → List β) (now : τ) (task : IngestTask)
    (s : Stores β τ) :
    ∃ n, Runs.run (Execution.alone embed) (⟨task, .contract⟩, s) (List.replicate n now) =
      some (⟨task, .done⟩, handleIngestContract embed now s task) := by
  by_cases hnil : task.payload.clauses = []
  · refine ⟨1, ?_⟩
    simp [List.replicate, Runs.run, Execution.alone, Execution.step, handleIngestContract, hnil]
  · refine ⟨4, ?_⟩
    simp [List.replicate, Runs.run, Execution.alone, Execution.step, handleIngestContract, hnil]

theorem KeyDetermined.mono {tasks tasks' : List IngestTask} (h : KeyDetermined tasks')
    (hsub : ∀ t ∈ tasks, t ∈ tasks') : KeyDetermined tasks :=
  ⟨fun t ht u hu => h.filename t (hsub t ht) u (hsub u hu),
    fun t ht c hc u hu => h.clause t (hsub t ht) c hc u (hsub u hu)⟩

namespace Stores

variable {embed : String → List β} {tasks tasks' : List IngestTask} {s u : Stores β τ}

theorem Sound.mono (hs : s.Sound embed tasks) (h : ∀ t ∈ tasks, t ∈ tasks') :
    s.Sound embed tasks' := by
  constructor
  · intro cid row hrow
    obtain ⟨t, ht, hrest⟩ := hs.contracts cid row hrow
    exact ⟨t, h t ht, hrest⟩
  · intro key row hrow
    obtain ⟨t, ht, hrest⟩ := hs.clauses key row hrow
    exact ⟨t, h t ht, hrest⟩
  · intro id cell hcell
    obtain ⟨t, ht, hrest⟩ := hs.vectors id cell hcell
    exact ⟨t, h t ht, hrest⟩

/-- Everything in the first stores is in the second ones, with the same value. -/
structure Within (s u : Stores β τ) : Prop where
  contracts : ∀ cid row, s.contracts cid = some row → u.contracts cid = some row
  clauses : ∀ key row, s.clauses key = some row → u.clauses key = some row
  vectors : ∀ id cell, s.vectors id = some cell → u.vectors id = some cell

theorem contents_within (hkeys : KeyDetermined tasks) (hs : s.Sound embed tasks)
    (hu : u.Sound embed tasks) (huall : u.Complete tasks) : s.contents.Within u.contents := by
  constructor
  · intro cid content hcid
    obtain ⟨row, hrow, rfl⟩ := Option.map_eq_some_iff.mp hcid
    obtain ⟨row', hrow'⟩ :=
      Option.isSome_iff_exists.mp (contracts_isSome hs huall (Option.isSome_of_eq_some hrow))
    obtain ⟨t, ht, hcid, hcontent⟩ := hs.contracts cid row hrow
    obtain ⟨t', ht', hcid', hcontent'⟩ := hu.contracts cid row' hrow'
    have hname := hkeys.filename t ht t' ht' (hcid.trans hcid'.symm)
    exact Option.map_eq_some_iff.mpr ⟨row', hrow', by rw [hcontent', hcontent, hname]⟩
  · intro key content hkey
    obtain ⟨row, hrow, rfl⟩ := Option.map_eq_some_iff.mp hkey
    obtain ⟨row', hrow'⟩ :=
      Option.isSome_iff_exists.mp (clauses_isSome hs huall (Option.isSome_of_eq_some hrow))
    obtain ⟨t, ht, c, hc, hkey, hcontent⟩ := hs.clauses key row hrow
    obtain ⟨t', ht', c', hc', hkey', hcontent'⟩ := hu.clauses key row' hrow'
    obtain ⟨-, hid⟩ := Prod.mk.inj (hkey.symm.trans hkey')
    obtain ⟨-, hcategory, htext⟩ := hkeys.clause t ht c hc t' ht' c' hc' hid
    exact Option.map_eq_some_iff.mpr
      ⟨row', hrow', by rw [hcontent', hcontent, hid, hcategory, htext]⟩
  · intro id cell hcell
    obtain ⟨cell', hcell'⟩ :=
      Option.isSome_iff_exists.mp (vectors_isSome hs huall (Option.isSome_of_eq_some hcell))
    obtain ⟨t, ht, c, hc, hid, rfl⟩ := hs.vectors id cell hcell
    obtain ⟨t', ht', c', hc', hid', rfl⟩ := hu.vectors id cell' hcell'
    obtain ⟨hcid, hcategory, htext⟩ := hkeys.clause t ht c hc t' ht' c' hc' (hid.symm.trans hid')
    rw [hcid, hcategory, htext]
    exact hcell'

end Stores

section Spec

variable {tasks : List IngestTask} {s : Stores β τ}

def Stores.Has (s : Stores β τ) (task : IngestTask) : Prop :=
  s.HasContract task ∧ s.HasVectors task ∧ s.HasClauses task

theorem Stores.Has.mono {s' : Stores β τ} {task : IngestTask} (h : s.Has task)
    (hgrows : s.Grows s') : s'.Has task :=
  ⟨hgrows.contracts _ h.1, fun c hc => hgrows.vectors _ (h.2.1 c hc),
    fun c hc => hgrows.clauses _ (h.2.2 c hc)⟩

theorem handleIngestContract_spec {embed : String → List β} (hkeys : KeyDetermined tasks)
    (hs : s.Sound embed tasks) {task : IngestTask} (ht : task ∈ tasks) (now : τ) :
    let s' := handleIngestContract embed now s task
    s'.Sound embed tasks ∧ s.Grows s' ∧ s'.Has task := by
  intro s'
  obtain ⟨n, hrun⟩ := Execution.run_alone embed now task s
  have hstep : ∀ (p : Execution β × Stores β τ) (now : τ) (q : Execution β × Stores β τ),
      (p.1.task = task ∧ p.2.Sound embed tasks ∧ s.Grows p.2 ∧ Pipeline.Wrote embed p.2 p.1) →
      Execution.alone embed p now = some q →
      q.1.task = task ∧ q.2.Sound embed tasks ∧ s.Grows q.2 ∧ Pipeline.Wrote embed q.2 q.1 := by
    rintro p now q ⟨htask, hsound, hgrows, hwrote⟩ hpq
    obtain ⟨htask', hsound', hgrows', hwrote'⟩ :=
      Pipeline.execution_step_spec hkeys hsound (htask ▸ ht) hwrote hpq
    exact ⟨htask'.trans htask, hsound', hgrows.trans hgrows', hwrote'⟩
  have hstart : Pipeline.Wrote embed s ⟨task, .contract⟩ := trivial
  obtain ⟨-, hsound, hgrows, hhas⟩ :=
    Runs.invariant hstep ⟨rfl, hs, Stores.grows_refl s, hstart⟩ hrun
  exact ⟨hsound, hgrows, hhas⟩

/-- The stores of the single process hold what the tasks write, and all of it. -/
theorem ingestAll_spec (embed : String → List β) (hkeys : KeyDetermined tasks) (now : τ) :
    (ingestAll embed now tasks).Sound embed tasks ∧
      (ingestAll embed now tasks).Complete tasks := by
  suffices hfold : ∀ (ts : List IngestTask), (∀ t ∈ ts, t ∈ tasks) →
      (ingestAll embed now ts).Sound embed tasks ∧ ∀ t ∈ ts, (ingestAll embed now ts).Has t from
    hfold tasks fun t ht => ht
  intro ts
  induction ts using List.reverseRecOn with
  | nil => exact fun _ => ⟨Stores.sound_empty, by simp⟩
  | append_singleton ts task ih =>
    intro hts
    obtain ⟨hsound, hall⟩ := ih fun t ht => hts t (List.mem_append_left _ ht)
    obtain ⟨hsound', hgrows, hhas⟩ :=
      handleIngestContract_spec hkeys hsound (hts task (by simp)) now
    have hlast : ingestAll embed now (ts ++ [task]) =
        handleIngestContract embed now (ingestAll embed now ts) task := by
      simp [ingestAll]
    rw [hlast]
    refine ⟨hsound', fun t ht => ?_⟩
    rcases List.mem_append.mp ht with ht | ht
    · exact (hall t ht).mono hgrows
    · obtain rfl := List.mem_singleton.mp ht
      exact hhas

end Spec

end LegalLens.Ingestion
