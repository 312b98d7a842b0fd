import LegalLens.Ingestion.VectorQuery
import LegalLens.Library.PointWrites
import Mathlib.Data.List.TakeWhile

/-!
# Upserts that raise

An upsert raises in its loop over the records, when the new rows are appended, or when the
manifest is serialized. Rows of ids that the manifest has are overwritten in memory before
any of this can happen, and the array has been saved before the manifest is serialized.
Nothing is undone.
-/

namespace LegalLens.Ingestion

open LocalNumpyIndex PointWrites

variable {α β ν : Type*}

namespace LocalNumpyIndex

variable (f32 : α → β) (index : LocalNumpyIndex β ν)

/-- The loop gets through the record: it has values and an id, and if the manifest has the
id, its vector can be assigned to the row. -/
def getsThrough (r : VectorRecord α ν) : Bool :=
  match r.values, r.id with
  | some vec, some id =>
    match LastWins.lastIndex id index.ids with
    | some idx => decide (idx < index.vectors.rows.length ∧
        (NdArray.broadcast index.vectors.cols (vec.map f32)).length = index.vectors.cols)
    | none => true
  | _, _ => false

/-- The records before the first one that the loop does not get through. -/
def accepted (records : List (VectorRecord α ν)) : List (VectorRecord α ν) :=
  records.takeWhile (getsThrough f32 index)

/-- The index that a record overwrites, with the row and the entry. -/
def overwrite? (r : VectorRecord α ν) : Option (ℕ × List β × ManifestEntry ν) :=
  match r.values, r.id with
  | some vec, some id =>
    (LastWins.lastIndex id index.ids).map fun idx =>
      (idx, NdArray.broadcast index.vectors.cols (vec.map f32), ⟨id, r.metadata.getD Dict.empty⟩)
  | _, _ => none

def addition? (r : VectorRecord α ν) : Option (List β × ManifestEntry ν) :=
  match r.values, r.id with
  | some vec, some id =>
    if id ∈ index.ids then none else some (vec.map f32, ⟨id, r.metadata.getD Dict.empty⟩)
  | _, _ => none

variable {f32 index}

theorem getsThrough_cases {r : VectorRecord α ν} (h : getsThrough f32 index r = true) :
    ∃ id vec, r.id = some id ∧ r.values = some vec ∧
      ((∃ idx, LastWins.lastIndex id index.ids = some idx ∧ idx < index.vectors.rows.length ∧
          (NdArray.broadcast index.vectors.cols (vec.map f32)).length = index.vectors.cols ∧
          overwrite? f32 index r = some (idx,
            NdArray.broadcast index.vectors.cols (vec.map f32),
            ⟨id, r.metadata.getD Dict.empty⟩) ∧ addition? f32 index r = none) ∨
        (LastWins.lastIndex id index.ids = none ∧ overwrite? f32 index r = none ∧
          addition? f32 index r = some (vec.map f32, ⟨id, r.metadata.getD Dict.empty⟩))) := by
  unfold getsThrough at h
  split at h
  next vec id hvec hid =>
    refine ⟨id, vec, hid, hvec, ?_⟩
    unfold overwrite? addition?
    rw [hvec, hid]
    dsimp only
    split at h
    next idx hidx =>
      obtain ⟨hlt, hlen⟩ := of_decide_eq_true h
      have hmem : id ∈ index.ids := List.mem_of_getElem? (LastWins.getElem?_of_lastIndex hidx)
      exact Or.inl ⟨idx, hidx, hlt, hlen, by rw [hidx, Option.map_some], if_pos hmem⟩
    next hnone =>
      have hmem : id ∉ index.ids := LastWins.lastIndex_eq_none_iff.mp hnone
      exact Or.inr ⟨hnone, by rw [hnone, Option.map_none], if_neg hmem⟩
  · cases h

/-- What the loop has done when it ends or raises. -/
structure Batch.After (f32 : α → β) (index : LocalNumpyIndex β ν) (b : Batch β ν)
    (done : List (VectorRecord α ν)) (b' : Batch β ν) : Prop where
  cols : b'.vectors.cols = b.vectors.cols
  rows : b'.vectors.rows = writeAll b.vectors.rows
    ((done.filterMap (overwrite? f32 index)).map fun w => (w.1, w.2.1))
  manifest : b'.manifest = writeAll b.manifest
    ((done.filterMap (overwrite? f32 index)).map fun w => (w.1, w.2.2))
  newVecs : b'.newVecs = b.newVecs ++ (done.filterMap (addition? f32 index)).map Prod.fst
  newEntries : b'.newEntries = b.newEntries ++ (done.filterMap (addition? f32 index)).map Prod.snd

theorem Batch.after_nil (b : Batch β ν) : Batch.After f32 index b [] b :=
  ⟨rfl, rfl, rfl, (List.append_nil _).symm, (List.append_nil _).symm⟩

theorem Batch.After.overwrite {b b' : Batch β ν} {r : VectorRecord α ν}
    {done : List (VectorRecord α ν)} {idx : ℕ} {row : List β} {entry : ManifestEntry ν}
    {vectors : NdArray β} (hover : overwrite? f32 index r = some (idx, row, entry))
    (hadd : addition? f32 index r = none) (hcols : vectors.cols = b.vectors.cols)
    (hrows : vectors.rows = b.vectors.rows.set idx row)
    (h : Batch.After f32 index
      { b with vectors := vectors, manifest := b.manifest.set idx entry } done b') :
    Batch.After f32 index b (r :: done) b' := by
  have hnewVecs := h.newVecs
  have hnewEntries := h.newEntries
  constructor
  · exact h.cols.trans hcols
  · rw [h.rows, List.filterMap_cons_some hover, hrows]
    rfl
  · rw [h.manifest, List.filterMap_cons_some hover]
    rfl
  · rwa [List.filterMap_cons_none hadd]
  · rwa [List.filterMap_cons_none hadd]

theorem Batch.After.append {b b' : Batch β ν} {r : VectorRecord α ν}
    {done : List (VectorRecord α ν)} {row : List β} {entry : ManifestEntry ν}
    (hover : overwrite? f32 index r = none) (hadd : addition? f32 index r = some (row, entry))
    (h : Batch.After f32 index
      { b with newVecs := b.newVecs ++ [row], newEntries := b.newEntries ++ [entry] } done b') :
    Batch.After f32 index b (r :: done) b' := by
  constructor
  · exact h.cols
  · rw [h.rows, List.filterMap_cons_none hover]
  · rw [h.manifest, List.filterMap_cons_none hover]
  · rw [h.newVecs, List.filterMap_cons_some hadd, List.map_cons, List.append_assoc]
    rfl
  · rw [h.newEntries, List.filterMap_cons_some hadd, List.map_cons, List.append_assoc]
    rfl

theorem upsertLoop_cons_of_not_getsThrough {r : VectorRecord α ν}
    (h : ¬getsThrough f32 index r = true) (records : List (VectorRecord α ν)) {b : Batch β ν}
    (hcols : b.vectors.cols = index.vectors.cols)
    (hrows : b.vectors.rows.length = index.vectors.rows.length) :
    ∃ e, upsertLoop f32 (LastWins.indexByKey index.ids) (r :: records) b = (b, some e) := by
  rw [upsertLoop]
  cases hvec : r.values with
  | none => exact ⟨_, rfl⟩
  | some vec =>
    cases hid : r.id with
    | none => exact ⟨_, rfl⟩
    | some id =>
      unfold getsThrough at h
      rw [hvec, hid] at h
      dsimp only at h ⊢
      rw [LastWins.get?_indexByKey]
      cases hidx : LastWins.lastIndex id index.ids with
      | none =>
        rw [hidx] at h
        exact absurd rfl h
      | some idx =>
        rw [hidx, ← hcols, ← hrows] at h
        have hset : ∃ e, b.vectors.setRow idx (vec.map f32) = .error e := by
          unfold NdArray.setRow
          split_ifs with hlt hlen
          · exact absurd (decide_eq_true ⟨hlt, hlen⟩) h
          · exact ⟨_, rfl⟩
          · exact ⟨_, rfl⟩
        obtain ⟨e, hset⟩ := hset
        refine ⟨e, ?_⟩
        dsimp only
        rw [hset]

theorem upsertLoop_after (f32 : α → β) (index : LocalNumpyIndex β ν)
    (records : List (VectorRecord α ν)) {b : Batch β ν}
    (hcols : b.vectors.cols = index.vectors.cols)
    (hrows : b.vectors.rows.length = index.vectors.rows.length) :
    ∃ b' e, upsertLoop f32 (LastWins.indexByKey index.ids) records b = (b', e) ∧
      Batch.After f32 index b (accepted f32 index records) b' ∧
      (e = none ↔ ∀ r ∈ records, getsThrough f32 index r = true) := by
  induction records generalizing b with
  | nil => exact ⟨b, none, rfl, Batch.after_nil b, by simp⟩
  | cons r records ih =>
    by_cases hr : getsThrough f32 index r = true
    · have haccepted : accepted f32 index (r :: records) = r :: accepted f32 index records :=
        List.takeWhile_cons_of_pos hr
      rw [haccepted, List.forall_mem_cons, and_iff_right hr, upsertLoop]
      obtain ⟨id, vec, hid, hvec, ⟨idx, hidx, hlt, hlen, hover, hadd⟩ | ⟨hnone, hover, hadd⟩⟩ :=
        getsThrough_cases hr
      · rw [hvec, hid]
        dsimp only
        rw [LastWins.get?_indexByKey, hidx]
        rw [← hcols] at hlen
        obtain ⟨vectors, hset, hcols', hrows'⟩ := NdArray.exists_setRow (hrows ▸ hlt) hlen
        rw [hcols] at hrows'
        have hlength : vectors.rows.length = index.vectors.rows.length := by
          rw [hrows', List.length_set, hrows]
        obtain ⟨b', e, hloop, hafter, hend⟩ := ih (b := { b with
          vectors := vectors
          manifest := b.manifest.set idx ⟨id, r.metadata.getD Dict.empty⟩ })
          (hcols'.trans hcols) hlength
        refine ⟨b', e, ?_, hafter.overwrite hover hadd hcols' hrows', hend⟩
        dsimp only
        rw [hset]
        exact hloop
      · rw [hvec, hid]
        dsimp only
        rw [LastWins.get?_indexByKey, hnone]
        obtain ⟨b', e, hloop, hafter, hend⟩ := ih (b := { b with
          newVecs := b.newVecs ++ [vec.map f32]
          newEntries := b.newEntries ++ [⟨id, r.metadata.getD Dict.empty⟩] }) hcols hrows
        exact ⟨b', e, hloop, hafter.append hover hadd, hend⟩
    · have haccepted : accepted f32 index (r :: records) = [] := List.takeWhile_cons_of_neg hr
      obtain ⟨e, hraise⟩ := upsertLoop_cons_of_not_getsThrough hr records hcols hrows
      refine ⟨b, some e, hraise, haccepted ▸ Batch.after_nil b, ?_⟩
      constructor
      · intro h
        cases h
      · intro h
        exact absurd (h r List.mem_cons_self) hr

/-- The loop gets through the record, and its vector can be appended if the id is new. -/
structure Fits (f32 : α → β) (index : LocalNumpyIndex β ν) (r : VectorRecord α ν) : Prop where
  through : getsThrough f32 index r = true
  length : ∀ row entry, addition? f32 index r = some (row, entry) →
    row.length = index.vectors.cols

/-- The rows and entries of the manifest's ids after the overwrites of some records. -/
def overwrittenRows (f32 : α → β) (index : LocalNumpyIndex β ν)
    (done : List (VectorRecord α ν)) : List (List β) :=
  writeAll index.vectors.rows
    ((done.filterMap (overwrite? f32 index)).map fun w => (w.1, w.2.1))

def overwrittenManifest (f32 : α → β) (index : LocalNumpyIndex β ν)
    (done : List (VectorRecord α ν)) : List (ManifestEntry ν) :=
  writeAll index.manifest
    ((done.filterMap (overwrite? f32 index)).map fun w => (w.1, w.2.2))

@[simp] theorem length_overwrittenRows (done : List (VectorRecord α ν)) :
    (overwrittenRows f32 index done).length = index.vectors.rows.length :=
  length_writeAll _ _

@[simp] theorem length_overwrittenManifest (done : List (VectorRecord α ν)) :
    (overwrittenManifest f32 index done).length = index.manifest.length :=
  length_writeAll _ _

theorem accepted_eq_self {records : List (VectorRecord α ν)}
    (h : ∀ r ∈ records, getsThrough f32 index r = true) : accepted f32 index records = records :=
  List.takeWhile_eq_self_iff.mpr h

theorem forall_length_additions_iff {records : List (VectorRecord α ν)}
    (h : ∀ r ∈ records, getsThrough f32 index r = true) :
    (∀ row ∈ (records.filterMap (addition? f32 index)).map Prod.fst,
      row.length = index.vectors.cols) ↔ ∀ r ∈ records, Fits f32 index r := by
  constructor
  · intro hrows r hr
    refine ⟨h r hr, fun row entry hadd => ?_⟩
    apply hrows
    exact List.mem_map.mpr ⟨(row, entry), List.mem_filterMap.mpr ⟨r, hr, hadd⟩, rfl⟩
  · intro hfits row hrow
    obtain ⟨w, hw, rfl⟩ := List.mem_map.mp hrow
    obtain ⟨r, hr, hadd⟩ := List.mem_filterMap.mp hw
    exact (hfits r hr).length w.1 w.2 hadd

/-- The in-memory part raises exactly if some record does not fit, and then it leaves the
overwrites of the records that the loop has got through. -/
theorem update_cases (f32 : α → β) (index : LocalNumpyIndex β ν)
    (records : List (VectorRecord α ν)) :
    ∃ index' e, index.update f32 records = (index', e) ∧ index'.dimension = index.dimension ∧
      index'.vectors.cols = index.vectors.cols ∧
      ((e = none ∧ (∀ r ∈ records, Fits f32 index r) ∧
          index'.vectors.rows = overwrittenRows f32 index records ++
            (records.filterMap (addition? f32 index)).map Prod.fst ∧
          index'.manifest = overwrittenManifest f32 index records ++
            (records.filterMap (addition? f32 index)).map Prod.snd) ∨
        (e ≠ none ∧ (¬∀ r ∈ records, Fits f32 index r) ∧
          index'.vectors.rows = overwrittenRows f32 index (accepted f32 index records) ∧
          index'.manifest = overwrittenManifest f32 index (accepted f32 index records))) := by
  obtain ⟨b, e, hloop, hafter, hend⟩ := upsertLoop_after f32 index records
    (b := ⟨index.vectors, index.manifest, [], []⟩) rfl rfl
  have hrows := hafter.rows
  have hmanifest := hafter.manifest
  have hnewVecs := hafter.newVecs
  have hnewEntries := hafter.newEntries
  rw [List.nil_append] at hnewVecs hnewEntries
  unfold update
  dsimp only
  rw [← ids, hloop]
  cases e with
  | some e =>
    refine ⟨_, _, rfl, rfl, hafter.cols, Or.inr ⟨Option.some_ne_none e, ?_, hrows, hmanifest⟩⟩
    intro hfits
    have := hend.mpr fun r hr => (hfits r hr).through
    cases this
  | none =>
    have hthrough := hend.mp rfl
    rw [accepted_eq_self hthrough] at hrows hmanifest hnewVecs hnewEntries
    have hfits := forall_length_additions_iff hthrough
    rw [← hnewVecs, ← hafter.cols] at hfits
    dsimp only
    split_ifs with hnew
    · have hnil : records.filterMap (addition? f32 index) = [] := by
        rw [hnew] at hnewVecs
        exact List.map_eq_nil_iff.mp hnewVecs.symm
      refine ⟨_, _, rfl, rfl, hafter.cols, Or.inl ⟨rfl, hfits.mp (by simp [hnew]), ?_, ?_⟩⟩
      · rw [hnil, List.map_nil, List.append_nil]
        exact hrows
      · rw [hnil, List.map_nil, List.append_nil]
        exact hmanifest
    · by_cases h : ∀ row ∈ b.newVecs, row.length = b.vectors.cols
      · obtain ⟨vectors, hconcat, hcols', hrows'⟩ := NdArray.exists_concatenate h
        rw [hconcat]
        refine ⟨_, _, rfl, rfl, hcols'.trans hafter.cols, Or.inl ⟨rfl, hfits.mp h, ?_, ?_⟩⟩
        · rw [hrows', hrows, hnewVecs]
          rfl
        · rw [hmanifest, hnewEntries]
          rfl
      · have hconcat : b.vectors.concatenate b.newVecs = .error .valueError := by
          unfold NdArray.concatenate
          rw [dif_neg h]
        rw [hconcat]
        refine ⟨_, _, rfl, rfl, hafter.cols,
          Or.inr ⟨Option.some_ne_none _, fun hall => h (hfits.mpr hall), ?_⟩⟩
        rw [accepted_eq_self hthrough]
        exact ⟨hrows, hmanifest⟩

/-- The last record of every id of the manifest, among those that the loop gets through,
carries the vector and the metadata that the store holds for the id. -/
def Repeats (f32 : α → β) (index : LocalNumpyIndex β ν) (done : List (VectorRecord α ν)) : Prop :=
  ∀ before r after, done = before ++ r :: after → ∀ id vec idx, r.id = some id →
    r.values = some vec → LastWins.lastIndex id index.ids = some idx →
    (∀ r' ∈ after, r'.id ≠ some id) →
      index.vectors.rows[idx]? = some (NdArray.broadcast index.vectors.cols (vec.map f32)) ∧
        index.manifest[idx]? = some ⟨id, r.metadata.getD Dict.empty⟩

theorem overwrite?_eq_some_iff {r : VectorRecord α ν} {w : ℕ × List β × ManifestEntry ν} :
    overwrite? f32 index r = some w ↔ ∃ id vec, r.id = some id ∧ r.values = some vec ∧
      LastWins.lastIndex id index.ids = some w.1 ∧
      w.2 = (NdArray.broadcast index.vectors.cols (vec.map f32),
        ⟨id, r.metadata.getD Dict.empty⟩) := by
  unfold overwrite?
  constructor
  · intro h
    split at h
    next vec id hvec hid =>
      obtain ⟨idx, hidx, rfl⟩ := Option.map_eq_some_iff.mp h
      exact ⟨id, vec, hid, hvec, hidx, rfl⟩
    · cases h
  · rintro ⟨id, vec, hid, hvec, hidx, hw⟩
    rw [hid, hvec]
    dsimp only
    rw [hidx, Option.map_some, ← hw]

theorem bounds_of_overwrite? {r : VectorRecord α ν} {w : ℕ × List β × ManifestEntry ν}
    (hr : getsThrough f32 index r = true) (h : overwrite? f32 index r = some w) :
    w.1 < index.vectors.rows.length ∧ w.1 < index.manifest.length := by
  obtain ⟨id, vec, hid, hvec, hidx, -⟩ := overwrite?_eq_some_iff.mp h
  refine ⟨?_, by simpa [ids] using LastWins.lastIndex_lt hidx⟩
  unfold getsThrough at hr
  rw [hid, hvec] at hr
  dsimp only at hr
  rw [hidx] at hr
  exact (of_decide_eq_true hr).1

theorem mem_overwrites_iff {after : List (VectorRecord α ν)}
    (hafter : ∀ r ∈ after, getsThrough f32 index r = true) {id : String} {idx : ℕ}
    (hidx : LastWins.lastIndex id index.ids = some idx) :
    idx ∈ (after.filterMap (overwrite? f32 index)).map Prod.fst ↔
      ∃ r ∈ after, r.id = some id := by
  constructor
  · intro h
    obtain ⟨w, hw, rfl⟩ := List.mem_map.mp h
    obtain ⟨r, hr, hover⟩ := List.mem_filterMap.mp hw
    obtain ⟨id', vec, hid', -, hidx', -⟩ := overwrite?_eq_some_iff.mp hover
    rw [LastWins.lastIndex_inj hidx hidx']
    exact ⟨r, hr, hid'⟩
  · rintro ⟨r, hr, hid⟩
    obtain ⟨id', vec, hid', -, ⟨idx', hidx', -, -, hover, -⟩ | ⟨hnone, -, -⟩⟩ :=
      getsThrough_cases (hafter r hr)
    · cases hid.symm.trans hid'
      cases hidx.symm.trans hidx'
      exact List.mem_map.mpr ⟨_, List.mem_filterMap.mpr ⟨r, hr, hover⟩, rfl⟩
    · cases hid.symm.trans hid'
      rw [hidx] at hnone
      cases hnone

theorem overwritten_eq_self_iff {done : List (VectorRecord α ν)}
    (hdone : ∀ r ∈ done, getsThrough f32 index r = true) :
    (overwrittenRows f32 index done = index.vectors.rows ∧
      overwrittenManifest f32 index done = index.manifest) ↔ Repeats f32 index done := by
  have hbounds : ∀ w ∈ done.filterMap (overwrite? f32 index),
      w.1 < index.vectors.rows.length ∧ w.1 < index.manifest.length := by
    intro w hw
    obtain ⟨r, hr, hover⟩ := List.mem_filterMap.mp hw
    exact bounds_of_overwrite? (hdone r hr) hover
  unfold overwrittenRows overwrittenManifest
  rw [writeAll_map_eq_self_iff Prod.fst fun w hw => (hbounds w hw).1,
    writeAll_map_eq_self_iff Prod.snd fun w hw => (hbounds w hw).2]
  constructor
  · rintro ⟨hrows, hmanifest⟩ before r after rfl id vec idx hid hvec hidx hlast
    have hover : overwrite? f32 index r = some (idx,
        NdArray.broadcast index.vectors.cols (vec.map f32),
        ⟨id, r.metadata.getD Dict.empty⟩) :=
      overwrite?_eq_some_iff.mpr ⟨id, vec, hid, hvec, hidx, rfl⟩
    have hafter : ∀ r' ∈ after, getsThrough f32 index r' = true :=
      fun r' hr' => hdone r' (by simp [hr'])
    have hlast' : idx ∉ (after.filterMap (overwrite? f32 index)).map Prod.fst := by
      rw [mem_overwrites_iff hafter hidx]
      rintro ⟨r', hr', hid'⟩
      exact hlast r' hr' hid'
    have hsplit : (before ++ r :: after).filterMap (overwrite? f32 index) =
        before.filterMap (overwrite? f32 index) ++ (idx,
          NdArray.broadcast index.vectors.cols (vec.map f32),
          ⟨id, r.metadata.getD Dict.empty⟩) :: after.filterMap (overwrite? f32 index) := by
      rw [List.filterMap_append, List.filterMap_cons_some hover]
    exact ⟨hrows _ _ _ _ hsplit hlast', hmanifest _ _ _ _ hsplit hlast'⟩
  · intro h
    have hstored : ∀ before i v after,
        done.filterMap (overwrite? f32 index) = before ++ (i, v) :: after →
          i ∉ after.map Prod.fst →
            index.vectors.rows[i]? = some v.1 ∧ index.manifest[i]? = some v.2 := by
      intro before i v after heq hlast
      obtain ⟨earlier, rest, rfl, -, hrest⟩ := List.filterMap_eq_append_iff.mp heq
      obtain ⟨skipped, r, later, rfl, -, hover, rfl⟩ := List.filterMap_eq_cons_iff.mp hrest
      obtain ⟨id, vec, hid, hvec, hidx, hv⟩ := overwrite?_eq_some_iff.mp hover
      dsimp only at hidx hv
      have hlater : ∀ r' ∈ later, getsThrough f32 index r' = true :=
        fun r' hr' => hdone r' (by simp [hr'])
      have hlast' : ∀ r' ∈ later, r'.id ≠ some id := by
        intro r' hr' hid'
        exact hlast ((mem_overwrites_iff hlater hidx).mpr ⟨r', hr', hid'⟩)
      rw [hv]
      exact h (earlier ++ skipped) r later (by simp) id vec i hid hvec hidx hlast'
    exact ⟨fun before i v after heq hlast => (hstored before i v after heq hlast).1,
      fun before i v after heq hlast => (hstored before i v after heq hlast).2⟩

/-- When an upsert that raises does no harm: the loop has only repeated what the store
holds, and if it is the manifest that cannot be serialized, no id is new and the array that
has been saved is the one in the file. -/
structure Harmless (f32 : α → β) (index : LocalNumpyIndex β ν) (files : Files β ν)
    (records : List (VectorRecord α ν)) : Prop where
  repeats : Repeats f32 index (accepted f32 index records)
  saved : (∀ r ∈ records, Fits f32 index r) →
    (∀ r ∈ records, ∀ id, r.id = some id → id ∈ index.ids) ∧ files.vectors = some index.vectors

theorem ext_iff_of_dimension {index' : LocalNumpyIndex β ν}
    (hdim : index'.dimension = index.dimension) (hcols : index'.vectors.cols = index.vectors.cols) :
    index' = index ↔
      index'.vectors.rows = index.vectors.rows ∧ index'.manifest = index.manifest := by
  constructor
  · rintro rfl
    exact ⟨rfl, rfl⟩
  · rintro ⟨hrows, hmanifest⟩
    have hvectors : index'.vectors = index.vectors := NdArray.ext_rows hcols hrows
    cases index
    cases index'
    simp_all

theorem additions_eq_nil_iff {records : List (VectorRecord α ν)}
    (hfits : ∀ r ∈ records, Fits f32 index r) :
    records.filterMap (addition? f32 index) = [] ↔
      ∀ r ∈ records, ∀ id, r.id = some id → id ∈ index.ids := by
  rw [List.filterMap_eq_nil_iff]
  refine forall₂_congr fun r hr => ?_
  obtain ⟨id, vec, hid, -, ⟨idx, hidx, -, -, -, hadd⟩ | ⟨hnone, -, hadd⟩⟩ :=
    getsThrough_cases (hfits r hr).through
  · rw [hadd, hid]
    have hmem : id ∈ index.ids := List.mem_of_getElem? (LastWins.getElem?_of_lastIndex hidx)
    simpa using hmem
  · rw [hadd, hid]
    have hmem : id ∉ index.ids := LastWins.lastIndex_eq_none_iff.mp hnone
    simpa using hmem

/-- If the in-memory part returns, only the serialization can raise, after the first write. -/
theorem upsert_of_update_returns {dumps : ν → Bool} {files : Files β ν}
    {records : List (VectorRecord α ν)} {index' : LocalNumpyIndex β ν}
    (hupdate : index.update f32 records = (index', none))
    (hraise : (index.upsert f32 dumps files records).2.2 ≠ none) :
    (index.upsert f32 dumps files records).1 = index' ∧
      (index.upsert f32 dumps files records).2.1 = index'.saveVectors files := by
  unfold upsert at hraise ⊢
  rw [hupdate] at hraise ⊢
  unfold persist at hraise ⊢
  dsimp only at hraise ⊢
  split_ifs at hraise ⊢
  · exact absurd rfl hraise
  · exact ⟨rfl, rfl⟩

theorem upsert_of_update_raises (dumps : ν → Bool) (files : Files β ν)
    {records : List (VectorRecord α ν)} {index' : LocalNumpyIndex β ν} {e : Option StoreError}
    (hupdate : index.update f32 records = (index', e)) (herror : e ≠ none) :
    (index.upsert f32 dumps files records).1 = index' ∧
      (index.upsert f32 dumps files records).2.1 = files := by
  unfold upsert
  rw [hupdate]
  cases e with
  | none => exact absurd rfl herror
  | some e => exact ⟨rfl, rfl⟩

/-- Of any store and any batch: an upsert that raises leaves memory and files as they were
exactly if it is harmless. -/
theorem raising_upsert_unchanged_iff (f32 : α → β) (dumps : ν → Bool)
    (index : LocalNumpyIndex β ν) (files : Files β ν) (records : List (VectorRecord α ν))
    (hraise : (index.upsert f32 dumps files records).2.2 ≠ none) :
    ((index.upsert f32 dumps files records).1 = index ∧
        (index.upsert f32 dumps files records).2.1 = files) ↔
      Harmless f32 index files records := by
  obtain ⟨index', e, hupdate, hdim, hcols, ⟨rfl, hfits, hrows, hmanifest⟩ |
    ⟨herror, hnotfits, hrows, hmanifest⟩⟩ := update_cases f32 index records
  · have hthrough : ∀ r ∈ records, getsThrough f32 index r = true :=
      fun r hr => (hfits r hr).through
    have hfiles := upsert_of_update_returns hupdate hraise
    rw [hfiles.1, hfiles.2]
    constructor
    · rintro ⟨rfl, hsave⟩
      obtain ⟨hsamerows, hadd⟩ :=
        List.append_inj (hrows.symm.trans (List.append_nil _).symm) (length_overwrittenRows _)
      obtain ⟨hsamemanifest, -⟩ := List.append_inj
        (hmanifest.symm.trans (List.append_nil _).symm) (length_overwrittenManifest _)
      constructor
      · rw [accepted_eq_self hthrough, ← overwritten_eq_self_iff hthrough]
        exact ⟨hsamerows, hsamemanifest⟩
      · intro _
        exact ⟨(additions_eq_nil_iff hfits).mp (List.map_eq_nil_iff.mp hadd),
          (congrArg Files.vectors hsave).symm⟩
    · intro h
      obtain ⟨hold, hcurrent⟩ := h.saved hfits
      have hadd := (additions_eq_nil_iff hfits).mpr hold
      have hrepeats := h.repeats
      rw [accepted_eq_self hthrough, ← overwritten_eq_self_iff hthrough] at hrepeats
      rw [hadd, List.map_nil, List.append_nil] at hrows hmanifest
      have hsame : index' = index := (ext_iff_of_dimension hdim hcols).mpr
        ⟨hrows.trans hrepeats.1, hmanifest.trans hrepeats.2⟩
      refine ⟨hsame, ?_⟩
      rw [hsame, saveVectors, ← hcurrent]
  · have hfiles := upsert_of_update_raises dumps files hupdate herror
    have hthrough : ∀ r ∈ accepted f32 index records, getsThrough f32 index r = true :=
      fun r hr => List.mem_takeWhile_imp hr
    rw [hfiles.1, hfiles.2, and_iff_left rfl, ext_iff_of_dimension hdim hcols, hrows, hmanifest,
      overwritten_eq_self_iff hthrough]
    exact ⟨fun h => ⟨h, fun hfits => absurd hfits hnotfits⟩, fun h => h.repeats⟩

/-- A record that repeats what is stored, before one without an id. -/
theorem raising_upsert_unchanged_iff_repeated :
    let s := Session.upserts (id : ℤ → ℤ) (fun _ : String => true) 1
      [[⟨some "a", some [1], none⟩]]
    let outcome := s.index.upsert id (fun _ => true) s.files
      [⟨some "a", some [1], none⟩, ⟨none, some [2], none⟩]
    outcome.1 = s.index ∧ outcome.2.1 = s.files := by
  intro s outcome
  have hraise : outcome.2.2 ≠ none := Option.some_ne_none (StoreError.keyError "id")
  refine (raising_upsert_unchanged_iff id (fun _ => true) s.index s.files _ hraise).mpr ?_
  constructor
  · intro before r after heq id vec idx hid hvec hidx hlast
    have haccepted : accepted (fun x : ℤ => x) s.index
        [⟨some "a", some [1], none⟩, ⟨none, some [2], none⟩] =
          [⟨some "a", some [1], none⟩] := rfl
    cases before with
    | nil =>
      cases haccepted.symm.trans heq
      cases hid
      cases hvec
      cases hidx
      exact ⟨rfl, rfl⟩
    | cons r' before =>
      have hlength := congrArg List.length (haccepted.symm.trans heq)
      simp at hlength
  · intro hfits
    have hthrough := (hfits ⟨none, some [2], none⟩ (by simp)).through
    cases hthrough

/-- A record before the one without an id is overwritten in memory, and a manifest that
cannot be serialized comes after the array has been saved. -/
theorem failing_upsert_leaves_traces :
    let s := Session.upserts (id : ℤ → ℤ) (fun text => text != "bytes") 1
      [[⟨some "a", some [1], none⟩]]
    let upsert := s.index.upsert id (fun text => text != "bytes") s.files
    let noId := upsert [⟨some "a", some [5], none⟩, ⟨none, some [2], none⟩]
    let noJson := upsert [⟨some "b", some [2], some (Dict.empty.set "raw" "bytes")⟩]
    noId.2.2 = some (.keyError "id") ∧ s.index.vectors.rows = [[1]] ∧
      noId.1.vectors.rows = [[5]] ∧
      noJson.2.2 = some .typeError ∧
      noJson.2.1.vectors.map NdArray.rows = some [[1], [2]] ∧
      noJson.2.1.manifest.map List.length = some 1 := by
  decide

end LocalNumpyIndex

end LegalLens.Ingestion
