import LegalLens.Ingestion.VectorContents
import LegalLens.Library.Runs

/-!
# Crashes of a process that writes the local store

Each of the two file writes of `_persist` is all or nothing, so a process that dies in an
upsert leaves the files in one of three states. The array is written before the manifest
and nothing records that the pair is incomplete; the theorem below says exactly when a
death between the two writes does no harm.
-/

namespace LegalLens.Ingestion

open LocalNumpyIndex

variable {α β ν : Type*}

/-- A process that has opened the store, and the files. -/
structure Session (β ν : Type*) where
  index : LocalNumpyIndex β ν
  files : Files β ν

namespace Session

def opened (dimension : ℕ) (files : Files β ν) : Session β ν :=
  ⟨init dimension files, files⟩

variable (f32 : α → β) (dumps : ν → Bool)

/-- A completed upsert; `none` if it raises. -/
def step (s : Session β ν) (records : List (VectorRecord α ν)) : Option (Session β ν) :=
  match s.index.upsert f32 dumps s.files records with
  | (index, files, none) => some ⟨index, files⟩
  | (_, _, some _) => none

inductive CrashPoint where
  | beforeSave
  | betweenWrites
  | afterWrites
  deriving DecidableEq

/-- The files left behind by a process that dies at the given point of an upsert; `none`
if the upsert raises before it gets there. -/
def crash (s : Session β ν) (records : List (VectorRecord α ν)) :
    CrashPoint → Option (Files β ν)
  | .beforeSave => some s.files
  | .betweenWrites =>
    match s.index.update f32 records with
    | (index, none) => some (index.saveVectors s.files)
    | (_, some _) => none
  | .afterWrites => (s.step f32 dumps records).map Session.files

variable {f32 dumps}

theorem step_eq_some {s t : Session β ν} {records : List (VectorRecord α ν)}
    (h : s.step f32 dumps records = some t) :
    s.index.update f32 records = (t.index, none) ∧
      t.files = ⟨some t.index.vectors, some t.index.manifest⟩ := by
  unfold step at h
  split at h
  next index files hupsert =>
    cases h
    exact upsert_eq_ok hupsert
  · cases h

/-- Memory and files agree, and every row belongs to an entry. -/
structure Stored (dimension : ℕ) (s : Session β ν) : Prop where
  aligned : s.index.Aligned
  cols : s.index.vectors.cols = dimension
  reopen : init dimension s.files = s.index

theorem stored_opened (dimension : ℕ) :
    Stored dimension (opened dimension ⟨none, none⟩ : Session β ν) :=
  ⟨rfl, rfl, rfl⟩

theorem Stored.step {dimension : ℕ} {s t : Session β ν} {records : List (VectorRecord α ν)}
    (hs : s.Stored dimension) (h : s.step f32 dumps records = some t) :
    t.Stored dimension ∧
      t.index.lookup = lastWrites f32 dimension s.index.lookup records := by
  obtain ⟨hupdate, hfiles⟩ := step_eq_some h
  have hu := update_spec hs.aligned hupdate
  have hdim : t.index.dimension = dimension := by
    rw [hu.dimension, ← hs.reopen]
    unfold init
    split <;> rfl
  refine ⟨⟨hu.aligned, hu.cols.trans hs.cols, ?_⟩, ?_⟩
  · rw [hfiles, init_of_written, ← hdim]
  · rw [hu.lookup, hs.cols]

theorem Stored.run {dimension : ℕ} {s t : Session β ν} (hs : s.Stored dimension)
    {batches : List (List (VectorRecord α ν))}
    (h : Runs.run (Session.step f32 dumps) s batches = some t) :
    t.Stored dimension ∧
      t.index.lookup = lastWrites f32 dimension s.index.lookup batches.flatten := by
  induction batches using List.reverseRecOn generalizing t with
  | nil =>
    cases h
    exact ⟨hs, rfl⟩
  | append_singleton batches records ih =>
    obtain ⟨u, hu, ht⟩ := Runs.run_concat_eq_some.mp h
    obtain ⟨hstored, hlookup⟩ := ih hu
    obtain ⟨hstored', hlookup'⟩ := hstored.step ht
    refine ⟨hstored', ?_⟩
    rw [hlookup', hlookup, ← lastWrites_append, List.flatten_concat]

/-- Nothing has been written, or both files hold what is in memory. -/
theorem files_of_run {dimension : ℕ} {t : Session β ν} {batches : List (List (VectorRecord α ν))}
    (h : Runs.run (Session.step f32 dumps) (opened dimension ⟨none, none⟩) batches = some t) :
    (batches = [] ∧ t = opened dimension ⟨none, none⟩) ∨
      (batches ≠ [] ∧ t.files = ⟨some t.index.vectors, some t.index.manifest⟩) := by
  induction batches using List.reverseRecOn with
  | nil =>
    cases h
    exact Or.inl ⟨rfl, rfl⟩
  | append_singleton batches records =>
    obtain ⟨u, -, ht⟩ := Runs.run_concat_eq_some.mp h
    exact Or.inr ⟨by simp, (step_eq_some ht).2⟩

/-- What a reader of the files may expect after a crash: the store before or after the
interrupted upsert, with a row for every entry, and later upserts that pair every id with
the vector last written for it, whether or not the interrupted upsert counts. -/
structure CrashConsistent (f32 : α → β) (dumps : ν → Bool) (dimension : ℕ)
    (batches : List (List (VectorRecord α ν))) (records : List (VectorRecord α ν))
    (before : LocalNumpyIndex β ν) (left : Files β ν) : Prop where
  before_or_after : init dimension left = before ∨
    init dimension left = (before.update f32 records).1
  aligned : (init dimension left).Aligned
  last_written : ∀ later t,
    Runs.run (Session.step f32 dumps) (opened dimension left) later = some t →
      t.index.Aligned ∧
      (t.index.lookup = lastWrites f32 dimension (fun _ => none) (batches ++ later).flatten ∨
        t.index.lookup =
          lastWrites f32 dimension (fun _ => none) (batches ++ records :: later).flatten)

/-- The interruptions between the two writes that do no harm: the manifest file does not
exist yet, or no id gains or changes its vector, or no id gains or changes its metadata. -/
def Harmless (f32 : α → β) (dimension : ℕ) (batches : List (List (VectorRecord α ν)))
    (before : LocalNumpyIndex β ν) (records : List (VectorRecord α ν)) : Prop :=
  batches = [] ∨
    (∀ id, (lastWrites f32 dimension before.lookup records id).map Prod.fst =
      (before.lookup id).map Prod.fst) ∨
    ∀ id, (lastWrites f32 dimension before.lookup records id).map Prod.snd =
      (before.lookup id).map Prod.snd

section

variable {dimension : ℕ} {batches : List (List (VectorRecord α ν))}
  {records : List (VectorRecord α ν)} {s : Session β ν} {left : Files β ν}

/-- A process that opens a store whose rows belong to entries goes on from its contents. -/
theorem run_of_opened {writes : List (VectorRecord α ν)} {later : List (List (VectorRecord α ν))}
    {t : Session β ν} (haligned : (init dimension left).Aligned)
    (hcols : (init dimension left).vectors.cols = dimension)
    (hlookup : (init dimension left).lookup = lastWrites f32 dimension (fun _ => none) writes)
    (ht : Runs.run (Session.step f32 dumps) (opened dimension left) later = some t) :
    t.index.Aligned ∧
      t.index.lookup = lastWrites f32 dimension (fun _ => none) (writes ++ later.flatten) := by
  have hopened : Stored dimension (opened dimension left) := ⟨haligned, hcols, rfl⟩
  obtain ⟨hstored, hfinal⟩ := hopened.run ht
  constructor
  · exact hstored.aligned
  · rw [hfinal, lastWrites_append, ← hlookup]
    rfl

theorem CrashConsistent.of_before
    (hrun : Runs.run (Session.step f32 dumps) (opened dimension ⟨none, none⟩) batches = some s)
    (h : init dimension left = s.index) :
    CrashConsistent f32 dumps dimension batches records s.index left := by
  obtain ⟨hs, hbefore⟩ := (stored_opened dimension).run hrun
  have haligned : (init dimension left).Aligned := h ▸ hs.aligned
  have hcols : (init dimension left).vectors.cols = dimension := h ▸ hs.cols
  have hlookup : (init dimension left).lookup =
      lastWrites f32 dimension (fun _ => none) batches.flatten := by
    rw [h, hbefore]
    rfl
  constructor
  · exact Or.inl h
  · exact haligned
  · intro later t ht
    obtain ⟨haligned', hfinal⟩ := run_of_opened haligned hcols hlookup ht
    rw [← List.flatten_append] at hfinal
    exact ⟨haligned', Or.inl hfinal⟩

theorem CrashConsistent.of_after {after : LocalNumpyIndex β ν}
    (hrun : Runs.run (Session.step f32 dumps) (opened dimension ⟨none, none⟩) batches = some s)
    (hupdate : s.index.update f32 records = (after, none))
    (h : init dimension left = after) :
    CrashConsistent f32 dumps dimension batches records s.index left := by
  obtain ⟨hs, hbefore⟩ := (stored_opened dimension).run hrun
  have hu := update_spec hs.aligned hupdate
  have haligned : (init dimension left).Aligned := h ▸ hu.aligned
  have hcols : (init dimension left).vectors.cols = dimension := h ▸ hu.cols.trans hs.cols
  have hlookup : (init dimension left).lookup =
      lastWrites f32 dimension (fun _ => none) (batches.flatten ++ records) := by
    rw [h, hu.lookup, hs.cols, hbefore, lastWrites_append]
    rfl
  constructor
  · right
    rw [h, hupdate]
  · exact haligned
  · intro later t ht
    obtain ⟨haligned', hfinal⟩ := run_of_opened haligned hcols hlookup ht
    rw [List.append_assoc, ← List.flatten_cons, ← List.flatten_append] at hfinal
    exact ⟨haligned', Or.inr hfinal⟩

/-- A crash leaves a consistent store exactly if it does not fall between the two writes of
an upsert that changes both files. -/
theorem crash_consistent_iff (point : CrashPoint)
    (hrun : Runs.run (Session.step f32 dumps) (opened dimension ⟨none, none⟩) batches = some s)
    (hcrash : s.crash f32 dumps records point = some left) :
    CrashConsistent f32 dumps dimension batches records s.index left ↔
      (point = .betweenWrites → Harmless f32 dimension batches s.index records) := by
  obtain ⟨hs, -⟩ := (stored_opened dimension).run hrun
  cases point with
  | beforeSave =>
    cases hcrash
    simpa using CrashConsistent.of_before hrun hs.reopen
  | afterWrites =>
    obtain ⟨t, ht, rfl⟩ := Option.map_eq_some_iff.mp hcrash
    simpa using CrashConsistent.of_after hrun (step_eq_some ht).1 (hs.step ht).1.reopen
  | betweenWrites =>
    simp only [crash] at hcrash
    split at hcrash
    next after hupdate =>
      cases hcrash
      have hu := update_spec hs.aligned hupdate
      have hvectors := hu.vectors_eq_iff hs.aligned
      have hmanifest := hu.manifest_eq_iff hs.aligned
      rw [hs.cols] at hvectors hmanifest
      simp only [true_implies, Harmless, ← hvectors, ← hmanifest]
      rcases files_of_run hrun with ⟨hnil, rfl⟩ | ⟨hne, hfiles⟩
      · simpa [hnil] using CrashConsistent.of_before hrun rfl
      · have hdim : s.index.dimension = dimension := by
          rw [← hs.reopen, hfiles, init_of_written]
        have hleft : init dimension (after.saveVectors s.files) =
            ⟨dimension, after.vectors, s.index.manifest⟩ := by
          rw [saveVectors, hfiles, init_of_written]
        constructor
        · intro hc
          rcases hc.before_or_after with h | h
          · have hvec := congrArg LocalNumpyIndex.vectors (hleft.symm.trans h)
            exact Or.inr (Or.inl hvec)
          · rw [hupdate] at h
            have hman := congrArg LocalNumpyIndex.manifest (hleft.symm.trans h)
            exact Or.inr (Or.inr hman.symm)
        · rintro (h | h | h)
          · exact absurd h hne
          · apply CrashConsistent.of_before hrun
            rw [hleft, h, ← hdim]
          · apply CrashConsistent.of_after hrun hupdate
            rw [hleft, ← h, ← hdim, ← hu.dimension]
    · cases hcrash

end

/-- Overwriting the vector of the only id, with the same metadata: the crash between the
writes leaves the store after the upsert. -/
theorem crash_consistent_iff_overwrite :
    ∃ s left,
      Runs.run (Session.step id fun _ => true) (opened 1 ⟨none, none⟩)
        [[(⟨some "a", some [1], none⟩ : VectorRecord ℕ String)]] = some s ∧
      s.crash id (fun _ => true) [⟨some "a", some [2], none⟩] .betweenWrites = some left ∧
      CrashConsistent id (fun _ => true) 1 [[⟨some "a", some [1], none⟩]]
        [⟨some "a", some [2], none⟩] s.index left := by
  let before : NdArray ℕ := ⟨1, [[1]], by simp⟩
  let after : NdArray ℕ := ⟨1, [[2]], by simp⟩
  let manifest : List (ManifestEntry String) := [⟨"a", Dict.empty⟩]
  refine ⟨⟨⟨1, before, manifest⟩, some before, some manifest⟩, ⟨some after, some manifest⟩,
    rfl, rfl, ?_⟩
  refine (crash_consistent_iff .betweenWrites rfl rfl).mpr fun _ => Or.inr (Or.inr ?_)
  intro id
  by_cases h : id = "a"
  · subst h
    rfl
  · simp [lastWrites, write, h]

/-- The second upsert adds an id and the process dies between the writes: the store is
reopened with two rows and one entry. -/
theorem crash_between_adds_row :
    ∃ s left,
      Runs.run (Session.step id fun _ => true) (opened 1 ⟨none, none⟩)
        [[(⟨some "a", some [1], none⟩ : VectorRecord ℕ String)]] = some s ∧
      s.crash id (fun _ => true) [⟨some "b", some [2], none⟩] .betweenWrites = some left ∧
      ¬CrashConsistent id (fun _ => true) 1 [[⟨some "a", some [1], none⟩]]
        [⟨some "b", some [2], none⟩] s.index left := by
  let before : NdArray ℕ := ⟨1, [[1]], by simp⟩
  let after : NdArray ℕ := ⟨1, [[1], [2]], by simp⟩
  let manifest : List (ManifestEntry String) := [⟨"a", Dict.empty⟩]
  refine ⟨⟨⟨1, before, manifest⟩, some before, some manifest⟩, ⟨some after, some manifest⟩,
    rfl, rfl, ?_⟩
  intro h
  have haligned : 2 = 1 := h.aligned
  omega

end Session

end LegalLens.Ingestion
