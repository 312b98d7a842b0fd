import LegalLens.Ingestion.LocalNumpyIndex

/-!
# What an upsert does to the contents of the store

The contents of a store are a partial map from ids to a vector and metadata, read from
the rows and the manifest together. A completed upsert updates this map record by
record. Rows and entries that are not the last of their id are never touched.
-/

namespace LegalLens.Ingestion

variable {α β ν : Type*}

/-- Manifest entries paired with the rows at the same index. -/
def cells (manifest : List (ManifestEntry ν)) (rows : List (List β)) :
    List (String × List β × Dict String ν) :=
  List.zipWith (fun m row => (m.id, row, m.metadata)) manifest rows

/-- The effect of one record on the contents of a store. -/
def write (f32 : α → β) (cols : ℕ) (contents : String → Option (List β × Dict String ν))
    (r : VectorRecord α ν) : String → Option (List β × Dict String ν) :=
  match r.id, r.values with
  | some id, some vec =>
    Function.update contents id
      (some (NdArray.broadcast cols (vec.map f32), r.metadata.getD Dict.empty))
  | _, _ => contents

def lastWrites (f32 : α → β) (cols : ℕ) (contents : String → Option (List β × Dict String ν))
    (records : List (VectorRecord α ν)) : String → Option (List β × Dict String ν) :=
  records.foldl (write f32 cols) contents

theorem lastWrites_append (f32 : α → β) (cols : ℕ)
    (contents : String → Option (List β × Dict String ν)) (rs ss : List (VectorRecord α ν)) :
    lastWrites f32 cols contents (rs ++ ss) =
      lastWrites f32 cols (lastWrites f32 cols contents rs) ss :=
  List.foldl_append

theorem lastWrites_concat (f32 : α → β) (cols : ℕ)
    (contents : String → Option (List β × Dict String ν)) (rs : List (VectorRecord α ν))
    (r : VectorRecord α ν) :
    lastWrites f32 cols contents (rs ++ [r]) = write f32 cols (lastWrites f32 cols contents rs) r :=
  lastWrites_append ..

/-- The id that a record gives a value. -/
def VectorRecord.written (r : VectorRecord α ν) : Option String :=
  r.values.bind fun _ => r.id

def written (records : List (VectorRecord α ν)) : List String :=
  records.filterMap VectorRecord.written

theorem written_concat (rs : List (VectorRecord α ν)) (r : VectorRecord α ν) :
    written (rs ++ [r]) = written rs ++ r.written.toList := by
  simp [written, List.filterMap_cons]
  cases r.written <;> rfl

theorem write_cases (f32 : α → β) (cols : ℕ) (r : VectorRecord α ν) :
    (r.written = none ∧ ∀ contents, write f32 cols contents r = contents) ∨
      ∃ id cell, r.written = some id ∧
        ∀ contents, write f32 cols contents r = Function.update contents id (some cell) := by
  obtain ⟨id, values, metadata⟩ := r
  cases values with
  | none => cases id <;> exact Or.inl ⟨rfl, fun _ => rfl⟩
  | some vec =>
    cases id with
    | none => exact Or.inl ⟨rfl, fun _ => rfl⟩
    | some id => exact Or.inr ⟨id, _, rfl, fun _ => rfl⟩

theorem lastWrites_of_notMem_written {f32 : α → β} {cols : ℕ} {records : List (VectorRecord α ν)}
    {id : String} (h : id ∉ written records)
    (contents : String → Option (List β × Dict String ν)) :
    lastWrites f32 cols contents records id = contents id := by
  induction records using List.reverseRecOn with
  | nil => rfl
  | append_singleton records r ih =>
    rw [written_concat, List.mem_append, not_or] at h
    rw [lastWrites_concat, ← ih h.1]
    rcases write_cases f32 cols r with ⟨-, hwrite⟩ | ⟨id', cell, hr, hwrite⟩
    · rw [hwrite]
    · have hne : id ≠ id' := by simpa [hr] using h.2
      rw [hwrite, Function.update_of_ne hne]

theorem lastWrites_of_mem_written (f32 : α → β) (cols : ℕ) {records : List (VectorRecord α ν)}
    {id : String} (h : id ∈ written records) :
    ∃ cell, ∀ contents, lastWrites f32 cols contents records id = some cell := by
  induction records using List.reverseRecOn with
  | nil => simp [written] at h
  | append_singleton records r ih =>
    rw [written_concat, List.mem_append] at h
    simp only [lastWrites_concat]
    rcases write_cases f32 cols r with ⟨hr, hwrite⟩ | ⟨id', cell, hr, hwrite⟩
    · simp only [hwrite]
      exact ih (by simpa [hr] using h)
    · simp only [hwrite]
      by_cases heq : id = id'
      · subst heq
        exact ⟨cell, fun _ => Function.update_self ..⟩
      · simp only [Function.update_of_ne heq]
        exact ih (by simpa [hr, heq] using h)

theorem cells_set (manifest : List (ManifestEntry ν)) (rows : List (List β)) (i : ℕ)
    (entry : ManifestEntry ν) (row : List β) :
    cells (manifest.set i entry) (rows.set i row) =
      (cells manifest rows).set i (entry.id, row, entry.metadata) := by
  induction manifest generalizing rows i with
  | nil => simp [cells]
  | cons m manifest ih =>
    cases rows with
    | nil => cases i <;> simp [cells]
    | cons r rows =>
      cases i with
      | zero => rfl
      | succ i => simpa [cells] using ih rows i

theorem cells_append {manifest : List (ManifestEntry ν)} {rows : List (List β)}
    (h : rows.length = manifest.length) (manifest' : List (ManifestEntry ν))
    (rows' : List (List β)) :
    cells (manifest ++ manifest') (rows ++ rows') = cells manifest rows ++ cells manifest' rows' :=
  List.zipWith_append h.symm

theorem map_cells {γ : Type*} (g : String → Dict String ν → γ) {manifest : List (ManifestEntry ν)}
    {rows : List (List β)} (h : rows.length = manifest.length) :
    (cells manifest rows).map (fun c => g c.1 c.2.2) =
      manifest.map fun entry => g entry.id entry.metadata := by
  induction manifest generalizing rows with
  | nil => simp [cells]
  | cons m manifest ih =>
    cases rows with
    | nil => simp at h
    | cons r rows =>
      simp only [List.length_cons, Nat.add_right_cancel_iff] at h
      simpa [cells] using ih h

theorem map_fst_cells {manifest : List (ManifestEntry ν)} {rows : List (List β)}
    (h : rows.length = manifest.length) :
    (cells manifest rows).map Prod.fst = manifest.map ManifestEntry.id :=
  map_cells (fun id _ => id) h

theorem map_vector_cells (manifest : List (ManifestEntry ν)) (rows : List (List β)) :
    (cells manifest rows).map (fun c => (c.1, c.2.1)) =
      (manifest.map ManifestEntry.id).zip rows := by
  unfold cells List.zip
  rw [List.map_zipWith, List.zipWith_map_left]

theorem map_metadata_cells {manifest : List (ManifestEntry ν)} {rows : List (List β)}
    (h : rows.length = manifest.length) :
    (cells manifest rows).map (fun c => (c.1, c.2.2)) =
      manifest.map fun entry => (entry.id, entry.metadata) :=
  map_cells Prod.mk h

/-- What a process that opens the store finds at an id. -/
def Files.lookup (files : Files β ν) (id : String) : Option (List β × Dict String ν) :=
  match files.vectors, files.manifest with
  | some vectors, some manifest => LastWins.lookup id (cells manifest vectors.rows)
  | _, _ => none

namespace LocalNumpyIndex

def Aligned (index : LocalNumpyIndex β ν) : Prop :=
  index.vectors.rows.length = index.manifest.length

def ids (index : LocalNumpyIndex β ν) : List String :=
  index.manifest.map ManifestEntry.id

def lookup (index : LocalNumpyIndex β ν) (id : String) : Option (List β × Dict String ν) :=
  LastWins.lookup id (cells index.manifest index.vectors.rows)

theorem Aligned.map_fst_cells {index : LocalNumpyIndex β ν} (h : index.Aligned) :
    (cells index.manifest index.vectors.rows).map Prod.fst = index.ids :=
  Ingestion.map_fst_cells h

theorem Aligned.lookup_eq_none_iff {index : LocalNumpyIndex β ν} (h : index.Aligned)
    {id : String} : index.lookup id = none ↔ id ∉ index.ids := by
  unfold lookup
  rw [LastWins.lookup_eq_none_iff, h.map_fst_cells]

theorem map_fst_lookup (index : LocalNumpyIndex β ν) (id : String) :
    (index.lookup id).map Prod.fst = LastWins.lookup id (index.ids.zip index.vectors.rows) := by
  rw [ids, ← map_vector_cells, LastWins.lookup_map, lookup]

theorem Aligned.map_snd_lookup {index : LocalNumpyIndex β ν} (h : index.Aligned) (id : String) :
    (index.lookup id).map Prod.snd =
      LastWins.lookup id (index.manifest.map fun entry => (entry.id, entry.metadata)) := by
  rw [← map_metadata_cells h, LastWins.lookup_map, lookup]

theorem lookup_init (dimension : ℕ) (files : Files β ν) :
    (init dimension files).lookup = files.lookup := by
  obtain ⟨vectors, manifest⟩ := files
  cases vectors <;> cases manifest <;> rfl

variable {f32 : α → β} {index : LocalNumpyIndex β ν}

/-- The variables of the loop, relative to the store at its start. -/
structure Batch.From (index : LocalNumpyIndex β ν) (b : Batch β ν) : Prop where
  cols : b.vectors.cols = index.vectors.cols
  ids : b.manifest.map ManifestEntry.id = index.ids
  aligned : b.vectors.rows.length = b.manifest.length
  fresh : ∀ entry ∈ b.newEntries, entry.id ∉ index.ids
  new_aligned : b.newVecs.length = b.newEntries.length
  untouched : ∀ i, (∀ id, LastWins.lastIndex id index.ids ≠ some i) →
    b.vectors.rows[i]? = index.vectors.rows[i]? ∧ b.manifest[i]? = index.manifest[i]?

/-- The contents that the batch will have once its new rows are appended. -/
def Batch.lookup (b : Batch β ν) (id : String) : Option (List β × Dict String ν) :=
  LastWins.lookup id (cells (b.manifest ++ b.newEntries)
    (b.vectors.rows ++ b.newVecs.map (NdArray.broadcast b.vectors.cols)))

theorem Batch.from_start (h : index.Aligned) :
    Batch.From index ⟨index.vectors, index.manifest, [], []⟩ :=
  ⟨rfl, rfl, h, by simp, rfl, fun _ _ => ⟨rfl, rfl⟩⟩

theorem Batch.From.overwrite {b : Batch β ν} (hb : b.From index) (entry : ManifestEntry ν)
    {idx : ℕ} {row : List β} {vectors : NdArray β}
    (hidx : LastWins.lastIndex entry.id index.ids = some idx)
    (hset : b.vectors.setRow idx row = .ok vectors) :
    Batch.From index { b with vectors := vectors, manifest := b.manifest.set idx entry } ∧
      Batch.lookup { b with vectors := vectors, manifest := b.manifest.set idx entry } =
        Function.update b.lookup entry.id
          (some (NdArray.broadcast index.vectors.cols row, entry.metadata)) := by
  obtain ⟨-, hcols, hrows⟩ := NdArray.setRow_eq_ok hset
  have hlt : idx < b.manifest.length := by
    have := LastWins.lastIndex_lt hidx
    rwa [← hb.ids, List.length_map] at this
  have hsame : (b.manifest.map ManifestEntry.id).set idx entry.id = index.ids := by
    rw [hb.ids]
    exact LastWins.set_eq_self_of_getElem? (LastWins.getElem?_of_lastIndex hidx)
  constructor
  · constructor
    · exact hcols.trans hb.cols
    · rw [List.map_set, hsame]
    · simp [hrows, hb.aligned]
    · exact hb.fresh
    · exact hb.new_aligned
    · intro i hi
      have hne : idx ≠ i := fun he => hi entry.id (he ▸ hidx)
      simpa [hrows, hne] using hb.untouched i hi
  · have hlast : LastWins.lastIndex entry.id ((cells (b.manifest ++ b.newEntries)
        (b.vectors.rows ++ b.newVecs.map (NdArray.broadcast b.vectors.cols))).map Prod.fst) =
          some idx := by
      rw [Ingestion.map_fst_cells (by simp [hb.aligned, hb.new_aligned]), List.map_append, hb.ids,
        LastWins.lastIndex_append_of_notMem, hidx]
      intro hmem
      obtain ⟨e, he, heq⟩ := List.mem_map.mp hmem
      apply hb.fresh e he
      rw [heq]
      exact List.mem_of_getElem? (LastWins.getElem?_of_lastIndex hidx)
    funext id
    unfold Batch.lookup
    simp only [hrows, hcols]
    rw [← List.set_append_left _ _ hlt, ← List.set_append_left _ _ (hb.aligned ▸ hlt), cells_set,
      LastWins.lookup_set hlast, Function.update_apply, hb.cols]

theorem Batch.From.append {b : Batch β ν} (hb : b.From index) (entry : ManifestEntry ν)
    (hid : entry.id ∉ index.ids) (row : List β) :
    Batch.From index
        { b with newVecs := b.newVecs ++ [row], newEntries := b.newEntries ++ [entry] } ∧
      Batch.lookup { b with newVecs := b.newVecs ++ [row], newEntries := b.newEntries ++ [entry] } =
        Function.update b.lookup entry.id
          (some (NdArray.broadcast index.vectors.cols row, entry.metadata)) := by
  constructor
  · refine ⟨hb.cols, hb.ids, hb.aligned, ?_, by simp [hb.new_aligned], hb.untouched⟩
    intro e he
    rcases List.mem_append.mp he with he | he
    · exact hb.fresh e he
    · rwa [List.mem_singleton.mp he]
  · funext id
    have hlen : (b.vectors.rows ++ b.newVecs.map (NdArray.broadcast b.vectors.cols)).length =
        (b.manifest ++ b.newEntries).length := by
      simp [hb.aligned, hb.new_aligned]
    unfold Batch.lookup
    simp only [List.map_append, ← List.append_assoc, List.map_singleton]
    rw [cells_append hlen]
    simp [cells, LastWins.lookup_concat, Function.update_apply, hb.cols]

theorem upsertLoop_spec (records : List (VectorRecord α ν)) {b b' : Batch β ν}
    (hb : b.From index)
    (h : upsertLoop f32 (LastWins.indexByKey index.ids) records b = (b', none)) :
    b'.From index ∧ b'.lookup = lastWrites f32 index.vectors.cols b.lookup records := by
  induction records generalizing b with
  | nil =>
    cases h
    exact ⟨hb, rfl⟩
  | cons r records ih =>
    unfold upsertLoop at h
    rw [lastWrites, List.foldl_cons, ← lastWrites, write]
    split at h
    · cases h
    next vec hvec =>
      split at h
      · cases h
      next id hid =>
        rw [hid, hvec]
        dsimp only at h ⊢
        rw [LastWins.get?_indexByKey] at h
        split at h
        next idx hidx =>
          split at h
          · cases h
          next vectors hset =>
            obtain ⟨hfrom, hlookup⟩ :=
              hb.overwrite ⟨id, r.metadata.getD Dict.empty⟩ hidx hset
            rw [← hlookup]
            exact ih hfrom h
        next hnone =>
          obtain ⟨hfrom, hlookup⟩ :=
            hb.append ⟨id, r.metadata.getD Dict.empty⟩
              (LastWins.lastIndex_eq_none_iff.mp hnone) (vec.map f32)
          rw [← hlookup]
          exact ih hfrom h

structure Upserted (f32 : α → β) (index : LocalNumpyIndex β ν) (records : List (VectorRecord α ν))
    (index' : LocalNumpyIndex β ν) : Prop where
  dimension : index'.dimension = index.dimension
  cols : index'.vectors.cols = index.vectors.cols
  aligned : index'.Aligned
  lookup : index'.lookup = lastWrites f32 index.vectors.cols index.lookup records
  ids : ∃ added, index'.ids = index.ids ++ added ∧ ∀ id ∈ added, id ∉ index.ids
  untouched : ∀ i < index.ids.length, (∀ id, LastWins.lastIndex id index.ids ≠ some i) →
    index'.vectors.rows[i]? = index.vectors.rows[i]? ∧ index'.manifest[i]? = index.manifest[i]?

theorem update_spec {index' : LocalNumpyIndex β ν} {records : List (VectorRecord α ν)}
    (hal : index.Aligned) (h : index.update f32 records = (index', none)) :
    Upserted f32 index records index' := by
  unfold update at h
  dsimp only at h
  have hstart : Batch.lookup ⟨index.vectors, index.manifest, [], []⟩ = index.lookup := by
    funext id
    simp [Batch.lookup, LocalNumpyIndex.lookup]
  split at h
  · simp at h
  next b hloop =>
    obtain ⟨hb, hlookup⟩ := upsertLoop_spec records (Batch.from_start hal) hloop
    rw [hstart] at hlookup
    split_ifs at h with hnew
    · cases h
      have hentries : b.newEntries = [] := by
        rw [← List.length_eq_zero_iff, ← hb.new_aligned, hnew, List.length_nil]
      refine ⟨rfl, hb.cols, hb.aligned, ?_, ⟨[], ?_, by simp⟩, fun i _ => hb.untouched i⟩
      · rw [← hlookup]
        funext id
        simp [Batch.lookup, LocalNumpyIndex.lookup, hnew, hentries]
      · rw [List.append_nil, LocalNumpyIndex.ids, hb.ids]
    · split at h
      · cases h
      next vectors hconcat =>
        cases h
        obtain ⟨hfits, hcols, hrows⟩ := NdArray.concatenate_eq_ok hconcat
        have hraw : b.newVecs.map (NdArray.broadcast b.vectors.cols) = b.newVecs := by
          rw [List.map_congr_left fun row hrow => NdArray.broadcast_of_length_eq (hfits row hrow),
            List.map_id']
        refine ⟨rfl, hcols.trans hb.cols, ?_, ?_,
          ⟨b.newEntries.map ManifestEntry.id, ?_, ?_⟩, ?_⟩
        · simp [Aligned, hrows, hb.aligned, hb.new_aligned]
        · rw [← hlookup]
          funext id
          simp only [Batch.lookup, LocalNumpyIndex.lookup, hrows, hraw]
        · rw [LocalNumpyIndex.ids, List.map_append, hb.ids]
        · intro id hid
          obtain ⟨entry, hentry, rfl⟩ := List.mem_map.mp hid
          exact hb.fresh entry hentry
        · intro i hlt hi
          have hmanifest : i < b.manifest.length := by
            rwa [← hb.ids, List.length_map] at hlt
          simp only [hrows]
          rw [List.getElem?_append_left (hb.aligned ▸ hmanifest),
            List.getElem?_append_left hmanifest]
          exact hb.untouched i hi

theorem upsert_eq_ok {dumps : ν → Bool} {index' : LocalNumpyIndex β ν} {files files' : Files β ν}
    {records : List (VectorRecord α ν)}
    (h : index.upsert f32 dumps files records = (index', files', none)) :
    index.update f32 records = (index', none) ∧
      files' = ⟨some index'.vectors, some index'.manifest⟩ := by
  unfold upsert at h
  split at h
  · simp at h
  next index'' hupdate =>
    unfold persist at h
    split_ifs at h
    · cases h
      exact ⟨hupdate, rfl⟩
    · simp at h

theorem init_of_written (dimension : ℕ) (vectors : NdArray β) (manifest : List (ManifestEntry ν)) :
    init dimension ⟨some vectors, some manifest⟩ = ⟨dimension, vectors, manifest⟩ := rfl

theorem Upserted.ids_eq {index' : LocalNumpyIndex β ν} {records : List (VectorRecord α ν)}
    (hu : Upserted f32 index records index') (hal : index.Aligned)
    (hnone : ∀ id, index.lookup id = none → index'.lookup id = none) : index'.ids = index.ids := by
  obtain ⟨added, hadded, hfresh⟩ := hu.ids
  cases added with
  | nil => rw [hadded, List.append_nil]
  | cons id added =>
    have hold : index.lookup id = none := hal.lookup_eq_none_iff.mpr (hfresh id (by simp))
    have hnew := hu.aligned.lookup_eq_none_iff.mp (hnone id hold)
    simp [hadded] at hnew

theorem Upserted.ids_eq_of_map_lookup {index' : LocalNumpyIndex β ν}
    {records : List (VectorRecord α ν)} (hu : Upserted f32 index records index')
    (hal : index.Aligned) {γ : Type*} {part : List β × Dict String ν → γ}
    (h : ∀ id, (index'.lookup id).map part = (index.lookup id).map part) :
    index'.ids = index.ids := by
  apply hu.ids_eq hal
  intro id hid
  have hpart := h id
  rwa [hid, Option.map_none, Option.map_eq_none_iff] at hpart

theorem Upserted.ids_eq_of_length {index' : LocalNumpyIndex β ν}
    {records : List (VectorRecord α ν)} (hu : Upserted f32 index records index')
    (hlen : index'.manifest.length = index.manifest.length) : index'.ids = index.ids := by
  obtain ⟨added, hadded, -⟩ := hu.ids
  have hlength := congrArg List.length hadded
  simp only [LocalNumpyIndex.ids, List.length_map, List.length_append] at hlength
  have hnil : added = [] := List.length_eq_zero_iff.mp (by omega)
  rw [hadded, hnil, List.append_nil]

theorem Upserted.vectors_eq_iff {index' : LocalNumpyIndex β ν} {records : List (VectorRecord α ν)}
    (hu : Upserted f32 index records index') (hal : index.Aligned) :
    index'.vectors = index.vectors ↔
      ∀ id, (lastWrites f32 index.vectors.cols index.lookup records id).map Prod.fst =
        (index.lookup id).map Prod.fst := by
  rw [← hu.lookup]
  constructor
  · intro h id
    have hids : index'.ids = index.ids := by
      apply hu.ids_eq_of_length
      rw [← hu.aligned, ← hal, h]
    rw [map_fst_lookup, map_fst_lookup, hids, h]
  · intro h
    have hids : index'.ids = index.ids := hu.ids_eq_of_map_lookup hal h
    have hlen : index.ids.length = index.vectors.rows.length := by
      rw [LocalNumpyIndex.ids, List.length_map, hal]
    have hlen' : index.ids.length = index'.vectors.rows.length := by
      rw [← hids, LocalNumpyIndex.ids, List.length_map, hu.aligned]
    have hfst : (index.ids.zip index.vectors.rows).map Prod.fst = index.ids :=
      List.map_fst_zip hlen.le
    have hzip : index.ids.zip index'.vectors.rows = index.ids.zip index.vectors.rows := by
      apply LastWins.eq_of_lookup_eq
      · rw [hfst, List.map_fst_zip hlen'.le]
      · intro i hi
        rw [hfst] at hi
        by_cases hlt : i < index.ids.length
        · unfold List.zip
          rw [List.getElem?_zipWith, List.getElem?_zipWith, (hu.untouched i hlt hi).1]
        · rw [List.getElem?_eq_none (by simp; omega), List.getElem?_eq_none (by simp; omega)]
      · intro id
        have := h id
        rwa [map_fst_lookup, map_fst_lookup, hids] at this
    apply NdArray.ext_rows hu.cols
    have := congrArg (List.map Prod.snd) hzip
    rwa [List.map_snd_zip hlen'.ge, List.map_snd_zip hlen.ge] at this

theorem Upserted.manifest_eq_iff {index' : LocalNumpyIndex β ν}
    {records : List (VectorRecord α ν)} (hu : Upserted f32 index records index')
    (hal : index.Aligned) :
    index'.manifest = index.manifest ↔
      ∀ id, (lastWrites f32 index.vectors.cols index.lookup records id).map Prod.snd =
        (index.lookup id).map Prod.snd := by
  rw [← hu.lookup]
  constructor
  · intro h id
    rw [hu.aligned.map_snd_lookup, hal.map_snd_lookup, h]
  · intro h
    have hids : index'.ids = index.ids := hu.ids_eq_of_map_lookup hal h
    have hpairs : index'.manifest.map (fun entry => (entry.id, entry.metadata)) =
        index.manifest.map fun entry => (entry.id, entry.metadata) := by
      apply LastWins.eq_of_lookup_eq
      · simpa [Function.comp_def, LocalNumpyIndex.ids] using hids
      · intro i hi
        have hi' : ∀ id, LastWins.lastIndex id index.ids ≠ some i := by
          simpa [Function.comp_def, LocalNumpyIndex.ids] using hi
        by_cases hlt : i < index.ids.length
        · rw [List.getElem?_map, List.getElem?_map, (hu.untouched i hlt hi').2]
        · have hlen := congrArg List.length hids
          simp only [LocalNumpyIndex.ids, List.length_map] at hlen hlt
          rw [List.getElem?_eq_none (by simp; omega), List.getElem?_eq_none (by simp; omega)]
      · intro id
        have := h id
        rwa [hu.aligned.map_snd_lookup, hal.map_snd_lookup] at this
    have hinj : Function.Injective fun entry : ManifestEntry ν => (entry.id, entry.metadata) := by
      rintro ⟨a, b⟩ ⟨c, d⟩ heq
      simpa using heq
    exact (List.map_injective_iff.mpr hinj) hpairs

end LocalNumpyIndex

end LegalLens.Ingestion
