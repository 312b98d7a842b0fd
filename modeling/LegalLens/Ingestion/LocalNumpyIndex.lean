import LegalLens.Library.LastWins

/-!
# The local vector store

`LocalNumpyIndex` keeps a two-dimensional array and a manifest, one entry per row, in
memory and in two files. An upsert overwrites the rows of ids already in the manifest,
appends the rest at the end of the batch, and then rewrites both files. Every place where
the Python code can raise is a branch below, and the state at the raise is returned.

Numbers are abstract: `f32` is the conversion to the array's element type. The manifest
file is represented by the value it decodes to, since the manifest consists of JSON data.
-/

namespace LegalLens.Ingestion

/-- A two-dimensional array: rows of one common width. -/
structure NdArray (β : Type*) where
  cols : ℕ
  rows : List (List β)
  width : ∀ row ∈ rows, row.length = cols

structure ManifestEntry (ν : Type*) where
  id : String
  metadata : Dict String ν

/-- One record of an upsert; a missing dictionary key is `none`. -/
structure VectorRecord (α ν : Type*) where
  id : Option String
  values : Option (List α)
  metadata : Option (Dict String ν)

inductive StoreError where
  | keyError (key : String)
  | indexError
  | valueError
  | typeError
  deriving DecidableEq, Repr

/-- The two files under the root directory. -/
structure Files (β ν : Type*) where
  vectors : Option (NdArray β)
  manifest : Option (List (ManifestEntry ν))

structure LocalNumpyIndex (β ν : Type*) where
  dimension : ℕ
  vectors : NdArray β
  manifest : List (ManifestEntry ν)

variable {α β ν : Type*}

namespace NdArray

/-- `np.zeros((0, dimension))`. -/
def zeros (dimension : ℕ) : NdArray β := ⟨dimension, [], by simp⟩

/-- A vector of length one is repeated along a row; any other is used as it is. -/
def broadcast (cols : ℕ) : List β → List β
  | [x] => List.replicate cols x
  | row => row

/-- Row assignment `vectors[idx] = row`. -/
def setRow (a : NdArray β) (idx : ℕ) (row : List β) : Except StoreError (NdArray β) :=
  if idx < a.rows.length then
    if h : (broadcast a.cols row).length = a.cols then
      .ok ⟨a.cols, a.rows.set idx (broadcast a.cols row), by
        intro r hr
        rcases List.mem_or_eq_of_mem_set hr with hr | rfl
        · exact a.width r hr
        · exact h⟩
    else .error .valueError
  else .error .indexError

/-- `np.concatenate([vectors, np.array(block)], axis=0)`: every new row must fit. -/
def concatenate (a : NdArray β) (block : List (List β)) : Except StoreError (NdArray β) :=
  if h : ∀ row ∈ block, row.length = a.cols then
    .ok ⟨a.cols, a.rows ++ block, by
      intro r hr
      exact (List.mem_append.mp hr).elim (a.width r) (h r)⟩
  else .error .valueError

theorem setRow_eq_ok {a b : NdArray β} {idx : ℕ} {row : List β} (h : a.setRow idx row = .ok b) :
    idx < a.rows.length ∧ b.cols = a.cols ∧ b.rows = a.rows.set idx (broadcast a.cols row) := by
  unfold setRow at h
  split_ifs at h with hidx hlen
  cases h
  exact ⟨hidx, rfl, rfl⟩

theorem concatenate_eq_ok {a b : NdArray β} {block : List (List β)}
    (h : a.concatenate block = .ok b) :
    (∀ row ∈ block, row.length = a.cols) ∧ b.cols = a.cols ∧ b.rows = a.rows ++ block := by
  unfold concatenate at h
  split_ifs at h with hlen
  cases h
  exact ⟨hlen, rfl, rfl⟩

theorem exists_setRow {a : NdArray β} {idx : ℕ} {row : List β} (hidx : idx < a.rows.length)
    (hlen : (broadcast a.cols row).length = a.cols) :
    ∃ b, a.setRow idx row = .ok b ∧ b.cols = a.cols ∧
      b.rows = a.rows.set idx (broadcast a.cols row) := by
  unfold setRow
  rw [if_pos hidx, dif_pos hlen]
  exact ⟨_, rfl, rfl, rfl⟩

theorem exists_concatenate {a : NdArray β} {block : List (List β)}
    (h : ∀ row ∈ block, row.length = a.cols) :
    ∃ b, a.concatenate block = .ok b ∧ b.cols = a.cols ∧ b.rows = a.rows ++ block := by
  unfold concatenate
  rw [dif_pos h]
  exact ⟨_, rfl, rfl, rfl⟩

theorem broadcast_of_length_eq {cols : ℕ} {row : List β} (h : row.length = cols) :
    broadcast cols row = row := by
  unfold broadcast
  split
  · subst h
    rfl
  · rfl

theorem ext_rows {a b : NdArray β} (hc : a.cols = b.cols) (hr : a.rows = b.rows) : a = b := by
  cases a
  cases b
  simp_all

end NdArray

namespace LocalNumpyIndex

/-- The constructor: load both files when both exist, else start empty. -/
def init (dimension : ℕ) (files : Files β ν) : LocalNumpyIndex β ν :=
  match files.vectors, files.manifest with
  | some vectors, some manifest => ⟨dimension, vectors, manifest⟩
  | _, _ => ⟨dimension, .zeros dimension, []⟩

/-- The first statement of `_persist`. -/
def saveVectors (index : LocalNumpyIndex β ν) (files : Files β ν) : Files β ν :=
  { files with vectors := some index.vectors }

def writeManifest (index : LocalNumpyIndex β ν) (files : Files β ν) : Files β ν :=
  { files with manifest := some index.manifest }

/-- Both file writes. `dumps` says which metadata values `json.dumps` accepts; it runs
before the manifest file is touched. -/
def persist (dumps : ν → Bool) (index : LocalNumpyIndex β ν) (files : Files β ν) :
    Files β ν × Option StoreError :=
  let files := index.saveVectors files
  if index.manifest.all fun m => m.metadata.values.all dumps then
    (index.writeManifest files, none)
  else (files, some .typeError)

/-- The local variables of an upsert. -/
structure Batch (β ν : Type*) where
  vectors : NdArray β
  manifest : List (ManifestEntry ν)
  newVecs : List (List β)
  newEntries : List (ManifestEntry ν)

variable (f32 : α → β)

/-- The loop over the records; a raise returns the variables as they were left. -/
def upsertLoop (idsExisting : Dict String ℕ) :
    List (VectorRecord α ν) → Batch β ν → Batch β ν × Option StoreError
  | [], b => (b, none)
  | r :: rs, b =>
    match r.values with
    | none => (b, some (.keyError "values"))
    | some vec =>
      match r.id with
      | none => (b, some (.keyError "id"))
      | some id =>
        let entry : ManifestEntry ν := ⟨id, r.metadata.getD Dict.empty⟩
        match idsExisting.get? id with
        | some idx =>
          match b.vectors.setRow idx (vec.map f32) with
          | .error e => (b, some e)
          | .ok vectors =>
            upsertLoop idsExisting rs
              { b with vectors := vectors, manifest := b.manifest.set idx entry }
        | none =>
          upsertLoop idsExisting rs
            { b with newVecs := b.newVecs ++ [vec.map f32], newEntries := b.newEntries ++ [entry] }

/-- The in-memory part of an upsert: everything before `_persist`. -/
def update (index : LocalNumpyIndex β ν) (records : List (VectorRecord α ν)) :
    LocalNumpyIndex β ν × Option StoreError :=
  let idsExisting := LastWins.indexByKey (index.manifest.map ManifestEntry.id)
  match upsertLoop f32 idsExisting records ⟨index.vectors, index.manifest, [], []⟩ with
  | (b, some e) => ({ index with vectors := b.vectors, manifest := b.manifest }, some e)
  | (b, none) =>
    if b.newVecs = [] then
      ({ index with vectors := b.vectors, manifest := b.manifest }, none)
    else
      match b.vectors.concatenate b.newVecs with
      | .error e => ({ index with vectors := b.vectors, manifest := b.manifest }, some e)
      | .ok vectors =>
        ({ index with vectors := vectors, manifest := b.manifest ++ b.newEntries }, none)

def upsert (dumps : ν → Bool) (index : LocalNumpyIndex β ν) (files : Files β ν)
    (records : List (VectorRecord α ν)) : LocalNumpyIndex β ν × Files β ν × Option StoreError :=
  match index.update f32 records with
  | (index, some e) => (index, files, some e)
  | (index, none) =>
    let (files, error) := index.persist dumps files
    (index, files, error)

end LocalNumpyIndex

end LegalLens.Ingestion
