import LegalLens.Ingestion.VectorContents
import LegalLens.Library.KeyedWrites
import LegalLens.Library.Runs

/-!
# Several processes on one local store

Every process that opens the store loads its own copy of the two files and writes the
whole copy back on every upsert. Openings and whole upserts are atomic steps here, taken
by any number of processes in any order.
-/

namespace LegalLens.Ingestion

open LocalNumpyIndex

variable {α β ν Pid : Type*}

/-- The shared files, the copy in each process, and the history: the record most recently
upserted for each id. -/
structure SharedStore (Pid β ν : Type*) where
  files : Files β ν
  index : Pid → Option (LocalNumpyIndex β ν)
  latest : String → Option (List β × Dict String ν)

namespace SharedStore

inductive Action (Pid α ν : Type*) where
  | openIndex (p : Pid) (dimension : ℕ)
  | upsert (p : Pid) (records : List (VectorRecord α ν))

def start : SharedStore Pid β ν :=
  ⟨⟨none, none⟩, fun _ => none, fun _ => none⟩

/-- The files hold, for every id upserted by any process, its most recent record. -/
def NoLostUpdate (s : SharedStore Pid β ν) : Prop :=
  ∀ id cell, s.latest id = some cell → s.files.lookup id = some cell

/-- The upserting process holds what the files hold, on all ids outside its batch. -/
def UpToDate (s : SharedStore Pid β ν) : Action Pid α ν → Prop
  | .openIndex _ _ => True
  | .upsert p records =>
    ∀ index, s.index p = some index →
      ∀ id, id ∉ written records → index.lookup id = s.files.lookup id

/-- Rows and entries correspond, and no copy knows an id that nobody upserted. -/
structure Inv (s : SharedStore Pid β ν) : Prop where
  files_aligned : ∀ dimension, (init dimension s.files).Aligned
  files_known : ∀ id, s.latest id = none → s.files.lookup id = none
  aligned : ∀ p index, s.index p = some index → index.Aligned
  known : ∀ p index, s.index p = some index → ∀ id, s.latest id = none → index.lookup id = none

theorem inv_start : Inv (start : SharedStore Pid β ν) :=
  ⟨fun _ => rfl, fun _ _ => rfl, (fun _ _ h => nomatch h), (fun _ _ h => nomatch h)⟩

variable [DecidableEq Pid]

/-- One step of one process. Only calls that return are steps. -/
def step (f32 : α → β) (dumps : ν → Bool) (s : SharedStore Pid β ν) :
    Action Pid α ν → Option (SharedStore Pid β ν)
  | .openIndex p dimension =>
    some { s with index := Function.update s.index p (some (init dimension s.files)) }
  | .upsert p records =>
    match s.index p with
    | none => none
    | some index =>
      match index.upsert f32 dumps s.files records with
      | (index', files, none) =>
        some
          { files := files
            index := Function.update s.index p (some index')
            latest := lastWrites f32 index.vectors.cols s.latest records }
      | (_, _, some _) => none

variable {f32 : α → β} {dumps : ν → Bool}

theorem step_upsert_eq_some {s t : SharedStore Pid β ν} {p : Pid}
    {records : List (VectorRecord α ν)} (hs : s.Inv)
    (h : s.step f32 dumps (.upsert p records) = some t) :
    ∃ index index', s.index p = some index ∧ Upserted f32 index records index' ∧
      t.files = ⟨some index'.vectors, some index'.manifest⟩ ∧
      t.index = Function.update s.index p (some index') ∧
      t.latest = lastWrites f32 index.vectors.cols s.latest records := by
  simp only [step] at h
  split at h
  · cases h
  next index hindex =>
    split at h
    next index' files hupsert =>
      cases h
      obtain ⟨hupdate, hfiles⟩ := upsert_eq_ok hupsert
      exact ⟨index, index', hindex, update_spec (hs.aligned p index hindex) hupdate, hfiles,
        rfl, rfl⟩
    · cases h

theorem inv_step {s t : SharedStore Pid β ν} {a : Action Pid α ν} (hs : s.Inv)
    (h : s.step f32 dumps a = some t) : t.Inv := by
  cases a with
  | openIndex p dimension =>
    cases h
    constructor
    · exact hs.files_aligned
    · exact hs.files_known
    · intro q index hq
      rcases KeyedWrites.update_eq_some_iff.mp hq with ⟨-, rfl⟩ | ⟨-, hq⟩
      · exact hs.files_aligned dimension
      · exact hs.aligned q index hq
    · intro q index hq
      rcases KeyedWrites.update_eq_some_iff.mp hq with ⟨-, rfl⟩ | ⟨-, hq⟩
      · rw [lookup_init]
        exact hs.files_known
      · exact hs.known q index hq
  | upsert p records =>
    obtain ⟨index, index', hindex, hu, hfiles, hprocs, hlatest⟩ := step_upsert_eq_some hs h
    have hnone : ∀ id, t.latest id = none → s.latest id = none ∧ id ∉ written records := by
      intro id hid
      rw [hlatest] at hid
      have hmem : id ∉ written records := by
        intro hmem
        obtain ⟨cell, hcell⟩ := lastWrites_of_mem_written f32 index.vectors.cols hmem
        rw [hcell] at hid
        cases hid
      rw [lastWrites_of_notMem_written hmem] at hid
      exact ⟨hid, hmem⟩
    have hknown : ∀ id, t.latest id = none → index'.lookup id = none := by
      intro id hid
      obtain ⟨hold, hmem⟩ := hnone id hid
      rw [hu.lookup, lastWrites_of_notMem_written hmem]
      exact hs.known p index hindex id hold
    constructor
    · intro dimension
      rw [hfiles, init_of_written]
      exact hu.aligned
    · rw [hfiles]
      exact hknown
    · intro q jndex hq
      rw [hprocs] at hq
      rcases KeyedWrites.update_eq_some_iff.mp hq with ⟨-, rfl⟩ | ⟨-, hq⟩
      · exact hu.aligned
      · exact hs.aligned q jndex hq
    · intro q jndex hq
      rw [hprocs] at hq
      rcases KeyedWrites.update_eq_some_iff.mp hq with ⟨-, rfl⟩ | ⟨-, hq⟩
      · exact hknown
      · intro id hid
        exact hs.known q jndex hq id (hnone id hid).1

/-- One step loses nothing exactly if the upserting process is up to date. -/
theorem noLostUpdate_step_iff {s t : SharedStore Pid β ν} {a : Action Pid α ν} (hs : s.Inv)
    (hkeep : s.NoLostUpdate) (h : s.step f32 dumps a = some t) :
    t.NoLostUpdate ↔ s.UpToDate a := by
  cases a with
  | openIndex p dimension =>
    cases h
    exact iff_of_true hkeep trivial
  | upsert p records =>
    obtain ⟨index, index', hindex, hu, hfiles, -, hlatest⟩ := step_upsert_eq_some hs h
    have hlookup : t.files.lookup = lastWrites f32 index.vectors.cols index.lookup records := by
      rw [hfiles, ← hu.lookup]
      rfl
    constructor
    · intro ht index₀ h₀ id hmem
      obtain rfl := Option.some.inj (hindex.symm.trans h₀)
      have hid := ht id
      rw [hlookup, hlatest, lastWrites_of_notMem_written hmem,
        lastWrites_of_notMem_written hmem] at hid
      cases hl : s.latest id with
      | none => rw [hs.known p index hindex id hl, hs.files_known id hl]
      | some cell => rw [hid cell hl, hkeep id cell hl]
    · intro hup id cell hid
      rw [hlatest] at hid
      rw [hlookup]
      by_cases hmem : id ∈ written records
      · obtain ⟨cell', hcell'⟩ := lastWrites_of_mem_written f32 index.vectors.cols hmem
        rw [hcell'] at hid ⊢
        exact hid
      · rw [lastWrites_of_notMem_written hmem] at hid ⊢
        rw [hup index hindex id hmem]
        exact hkeep id cell hid

/-- In a run of any processes, the files hold every most recent record at all times exactly
if every upsert is made by a process whose copy is up to date outside its batch. -/
theorem no_lost_update_iff {acts : List (Action Pid α ν)} {s : SharedStore Pid β ν}
    (hrun : Runs.run (step f32 dumps) start acts = some s) :
    Runs.EveryState (step f32 dumps) start acts NoLostUpdate ↔
      Runs.EveryStep (step f32 dumps) (start : SharedStore Pid β ν) acts UpToDate :=
  Runs.everyState_iff_everyStep (fun _ _ _ ht h => inv_step ht h)
    (fun _ _ _ ht hkeep h => noLostUpdate_step_iff ht hkeep h) inv_start
    (fun _ _ h => nomatch h) hrun

/-- Two processes, the second opening the store after the upsert of the first. -/
theorem no_lost_update_iff_in_turn :
    ∃ s, Runs.run (step id fun _ => true) start
        [.openIndex 0 1, .upsert 0 [(⟨some "a", some [1], none⟩ : VectorRecord ℕ String)],
          .openIndex 1 1, .upsert 1 [⟨some "b", some [2], none⟩]] = some s ∧
      (Runs.EveryState (step id fun _ => true) (start : SharedStore ℕ ℕ String)
          [.openIndex 0 1, .upsert 0 [⟨some "a", some [1], none⟩],
            .openIndex 1 1, .upsert 1 [⟨some "b", some [2], none⟩]] NoLostUpdate ↔
        Runs.EveryStep (step id fun _ => true) (start : SharedStore ℕ ℕ String)
          [.openIndex 0 1, .upsert 0 [⟨some "a", some [1], none⟩],
            .openIndex 1 1, .upsert 1 [⟨some "b", some [2], none⟩]] UpToDate) :=
  ⟨_, rfl, no_lost_update_iff rfl⟩

/-- Both processes open the empty store; the upsert of the second erases the record of the
first from the files. -/
theorem second_upsert_erases_first :
    ∃ s : SharedStore ℕ ℕ String,
      Runs.run (step id fun _ => true) start
        [.openIndex 0 1, .openIndex 1 1, .upsert 0 [⟨some "a", some [1], none⟩],
          .upsert 1 [⟨some "b", some [2], none⟩]] = some s ∧
      s.latest "a" = some ([1], Dict.empty) ∧ s.files.lookup "a" = none ∧ ¬s.NoLostUpdate := by
  refine ⟨_, rfl, rfl, rfl, fun h => ?_⟩
  have hlost := h "a" ([1], Dict.empty) rfl
  cases hlost

end SharedStore

end LegalLens.Ingestion
