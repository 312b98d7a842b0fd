import LegalLens.Ingestion.CrashConsistency
import LegalLens.Library.Ranking

/-!
# Queries of the local vector store

A query scores every row by its dot product with the query vector, keeps the manifest
entries that pass the filter, sorts them by descending score and cuts the list. Scores are
exact: the arithmetic is that of an ordered ring.

As long as no batch repeats an id, the rows and entries of a store are the items of one
insertion-ordered dictionary, and an upsert is assignment to that dictionary.
-/

namespace LegalLens.Ingestion

open LocalNumpyIndex Ranking

variable {α β ν : Type*}

structure QueryHit (β ν : Type*) where
  id : String
  score : β
  metadata : Dict String ν

/-- The slice `xs[:k]`; a negative bound counts from the end. -/
def sliceTo {γ : Type*} (k : ℤ) (xs : List γ) : List γ :=
  xs.take (if 0 ≤ k then k else xs.length + k).toNat

/-- `all(metadata.get(k) == v for k, v in filter.items())`; a missing key reads as `null`. -/
def passes (null : ν) (eq : ν → ν → Bool) (filter metadata : Dict String ν) : Bool :=
  filter.entries.all fun item => eq ((metadata.get? item.1).getD null) item.2

/-- The condition on metadata that a query applies; no filter and an empty one accept all. -/
def accepts (null : ν) (eq : ν → ν → Bool) : Option (Dict String ν) → Dict String ν → Bool
  | none, _ => true
  | some filter, metadata => if filter.entries = [] then true else passes null eq filter metadata

section Query

variable [Ring β] [LinearOrder β]

def dot (v q : List β) : β := (List.zipWith (· * ·) v q).sum

/-- `vectors @ q`: the dot product of every row with `q`, which must fit. -/
def NdArray.matVec (a : NdArray β) (q : List β) : Except StoreError (List β) :=
  if q.length = a.cols then .ok (a.rows.map fun row => dot row q) else .error .valueError

/-- The candidates with their scores; a candidate without a row raises. -/
def scoreCandidates (scores : List β) :
    List (ManifestEntry ν × ℕ) → Except StoreError (List (QueryHit β ν))
  | [] => .ok []
  | (entry, i) :: candidates =>
    match scores[i]? with
    | none => .error .indexError
    | some score =>
      match scoreCandidates scores candidates with
      | .error e => .error e
      | .ok hits => .ok (⟨entry.id, score, entry.metadata⟩ :: hits)

def LocalNumpyIndex.query (f32 : α → β) (null : ν) (eq : ν → ν → Bool)
    (index : LocalNumpyIndex β ν) (vector : List α) (topK : ℤ)
    (filter : Option (Dict String ν)) : Except StoreError (List (QueryHit β ν)) :=
  if index.manifest = [] then .ok []
  else
    match index.vectors.matVec (vector.map f32) with
    | .error e => .error e
    | .ok scores =>
      let candidates := index.manifest.zipIdx.filter fun c => accepts null eq filter c.1.metadata
      match scoreCandidates scores candidates with
      | .error e => .error e
      | .ok hits => .ok (sliceTo topK (sortedBy (fun hit => -hit.score) hits))

end Query

/-! ## The contents as a dictionary -/

/-- The items of the store by id, in the order of first insertion. -/
abbrev Contents (β ν : Type*) := Dict String (List β × Dict String ν)

/-- Assign the vector and the metadata of a record to its id. -/
def assignRecord (f32 : α → β) (contents : Contents β ν) (r : VectorRecord α ν) : Contents β ν :=
  match r.id, r.values with
  | some id, some vec => contents.set id (vec.map f32, r.metadata.getD Dict.empty)
  | _, _ => contents

def assignRecords (f32 : α → β) (contents : Contents β ν) (records : List (VectorRecord α ν)) :
    Contents β ν :=
  records.foldl (assignRecord f32) contents

/-- A record as the protocol asks for: with an id, and a vector of the index dimension. -/
structure VectorRecord.WellFormed (dimension : ℕ) (r : VectorRecord α ν) : Prop where
  id : ∃ id, r.id = some id
  values : ∃ vec, r.values = some vec ∧ vec.length = dimension

/-- The rows and entries of a store are the items of a dictionary. -/
structure Represents (dimension : ℕ) (index : LocalNumpyIndex β ν) (contents : Contents β ν) :
    Prop where
  aligned : index.Aligned
  cols : index.vectors.cols = dimension
  cells : cells index.manifest index.vectors.rows = contents.entries

namespace LocalNumpyIndex

variable {f32 : α → β} {index : LocalNumpyIndex β ν} {contents : Contents β ν}

/-- The items that the store will have once the new rows of a batch are appended. -/
def Batch.cells (b : Batch β ν) : List (String × List β × Dict String ν) :=
  Ingestion.cells (b.manifest ++ b.newEntries) (b.vectors.rows ++ b.newVecs)

/-- The variables of the loop, relative to the store and to the items written so far. -/
structure Batch.Holds (index : LocalNumpyIndex β ν) (contents : Contents β ν) (b : Batch β ν) :
    Prop extends b.From index where
  cells_eq : b.cells = contents.entries
  fits : ∀ row ∈ b.newVecs, row.length = index.vectors.cols

theorem Batch.From.map_fst_cells {b : Batch β ν} (hb : b.From index) :
    b.cells.map Prod.fst = index.ids ++ b.newEntries.map ManifestEntry.id := by
  unfold Batch.cells
  rw [Ingestion.map_fst_cells (by simp [hb.aligned, hb.new_aligned]), List.map_append, hb.ids]

theorem Batch.Holds.overwrite {b : Batch β ν} (hb : b.Holds index contents)
    (entry : ManifestEntry ν) {idx : ℕ} {row : List β}
    (hidx : LastWins.lastIndex entry.id index.ids = some idx)
    (hlen : row.length = index.vectors.cols) :
    ∃ vectors, b.vectors.setRow idx row = .ok vectors ∧
      Batch.Holds index (contents.set entry.id (row, entry.metadata))
        { b with vectors := vectors, manifest := b.manifest.set idx entry } := by
  have hlt : idx < b.manifest.length := by
    have := LastWins.lastIndex_lt hidx
    rwa [← hb.ids, List.length_map] at this
  have hbroadcast : NdArray.broadcast b.vectors.cols row = row :=
    NdArray.broadcast_of_length_eq (hlen.trans hb.cols.symm)
  have hfits : (NdArray.broadcast b.vectors.cols row).length = b.vectors.cols := by
    rw [hbroadcast, hlen, hb.cols]
  obtain ⟨vectors, hset, -, hrows⟩ := NdArray.exists_setRow (hb.aligned ▸ hlt) hfits
  rw [hbroadcast] at hrows
  have hkey : (contents.entries.map Prod.fst)[idx]? = some entry.id := by
    rw [← hb.cells_eq, hb.map_fst_cells, List.getElem?_append_left (LastWins.lastIndex_lt hidx)]
    exact LastWins.getElem?_of_lastIndex hidx
  have hassign : (contents.set entry.id (row, entry.metadata)).entries =
      contents.entries.set idx (entry.id, row, entry.metadata) :=
    Dict.assign_eq_set contents.nodup hkey
  refine ⟨vectors, hset, (hb.toFrom.overwrite entry hidx hset).1, ?_, hb.fits⟩
  rw [hassign, ← hb.cells_eq]
  unfold Batch.cells
  simp only [hrows]
  rw [← List.set_append_left _ _ hlt, ← List.set_append_left _ _ (hb.aligned ▸ hlt), cells_set]

theorem Batch.Holds.append {b : Batch β ν} (hb : b.Holds index contents) (entry : ManifestEntry ν)
    (hid : entry.id ∉ index.ids) (hnew : entry.id ∉ b.newEntries.map ManifestEntry.id)
    {row : List β} (hlen : row.length = index.vectors.cols) :
    Batch.Holds index (contents.set entry.id (row, entry.metadata))
      { b with newVecs := b.newVecs ++ [row], newEntries := b.newEntries ++ [entry] } := by
  have hfresh : entry.id ∉ contents.entries.map Prod.fst := by
    rw [← hb.cells_eq, hb.map_fst_cells, List.mem_append, not_or]
    exact ⟨hid, hnew⟩
  have hassign : (contents.set entry.id (row, entry.metadata)).entries =
      contents.entries ++ [(entry.id, row, entry.metadata)] := Dict.assign_eq_append hfresh
  have hlength : (b.vectors.rows ++ b.newVecs).length = (b.manifest ++ b.newEntries).length := by
    simp [hb.aligned, hb.new_aligned]
  refine ⟨(hb.toFrom.append entry hid row).1, ?_, ?_⟩
  · rw [hassign, ← hb.cells_eq]
    unfold Batch.cells
    dsimp only
    rw [← List.append_assoc, ← List.append_assoc, Ingestion.cells_append hlength]
    rfl
  · intro row' hrow
    rcases List.mem_append.mp hrow with hrow | hrow
    · exact hb.fits row' hrow
    · rwa [List.mem_singleton.mp hrow]

/-- The loop of an upsert assigns the records of its batch one by one. -/
theorem upsertLoop_holds (records : List (VectorRecord α ν)) {b : Batch β ν}
    (hb : b.Holds index contents)
    (hwf : ∀ r ∈ records, r.WellFormed index.vectors.cols)
    (honce : (b.newEntries.map ManifestEntry.id ++ records.filterMap VectorRecord.id).Nodup) :
    ∃ b', upsertLoop f32 (LastWins.indexByKey index.ids) records b = (b', none) ∧
      b'.Holds index (assignRecords f32 contents records) := by
  induction records generalizing b contents with
  | nil => exact ⟨b, rfl, hb⟩
  | cons r records ih =>
    have hwf' : ∀ r' ∈ records, r'.WellFormed index.vectors.cols :=
      fun r' hr' => hwf r' (List.mem_cons_of_mem r hr')
    obtain ⟨⟨id, hid⟩, vec, hvec, hlen⟩ := hwf r List.mem_cons_self
    have hrow : (vec.map f32).length = index.vectors.cols := by rw [List.length_map, hlen]
    rw [List.filterMap_cons_some hid] at honce
    rw [upsertLoop, hid, hvec, assignRecords, List.foldl_cons, ← assignRecords, assignRecord, hid,
      hvec]
    dsimp only
    rw [LastWins.get?_indexByKey]
    cases hidx : LastWins.lastIndex id index.ids with
    | some idx =>
      obtain ⟨vectors, hset, hb'⟩ :=
        hb.overwrite ⟨id, r.metadata.getD Dict.empty⟩ hidx hrow
      dsimp only
      rw [hset]
      apply ih hb' hwf'
      exact honce.sublist ((List.sublist_cons_self id _).append_left _)
    | none =>
      have hold : id ∉ index.ids := LastWins.lastIndex_eq_none_iff.mp hidx
      have hnew : id ∉ b.newEntries.map ManifestEntry.id := by
        intro hmem
        exact (List.nodup_append.mp honce).2.2 id hmem id List.mem_cons_self rfl
      apply ih (hb.append ⟨id, r.metadata.getD Dict.empty⟩ hold hnew hrow) hwf'
      simpa using honce

theorem update_represents {dimension : ℕ} {records : List (VectorRecord α ν)}
    (h : Represents dimension index contents) (hwf : ∀ r ∈ records, r.WellFormed dimension)
    (honce : (records.filterMap VectorRecord.id).Nodup) :
    ∃ index', index.update f32 records = (index', none) ∧
      Represents dimension index' (assignRecords f32 contents records) := by
  rw [← h.cols] at hwf
  have hstart : Batch.Holds index contents ⟨index.vectors, index.manifest, [], []⟩ := by
    refine ⟨Batch.from_start h.aligned, ?_, by simp⟩
    unfold Batch.cells
    rw [List.append_nil, List.append_nil, h.cells]
  obtain ⟨b, hloop, hb⟩ : ∃ b, upsertLoop f32 (LastWins.indexByKey index.ids) records
      ⟨index.vectors, index.manifest, [], []⟩ = (b, none) ∧
        b.Holds index (assignRecords f32 contents records) :=
    upsertLoop_holds records hstart hwf honce
  have hcells := hb.cells_eq
  unfold Batch.cells at hcells
  unfold update
  dsimp only
  rw [← ids, hloop]
  dsimp only
  split_ifs with hnew
  · have hentries : b.newEntries = [] := by
      rw [← List.length_eq_zero_iff, ← hb.new_aligned, hnew, List.length_nil]
    rw [hnew, hentries, List.append_nil, List.append_nil] at hcells
    exact ⟨_, rfl, hb.aligned, hb.cols.trans h.cols, hcells⟩
  · have hfits : ∀ row ∈ b.newVecs, row.length = b.vectors.cols := by
      rw [hb.cols]
      exact hb.fits
    obtain ⟨vectors, hconcat, hcols, hrows⟩ := NdArray.exists_concatenate hfits
    rw [hconcat]
    refine ⟨_, rfl, ?_, (hcols.trans hb.cols).trans h.cols, ?_⟩
    · simp [Aligned, hrows, hb.aligned, hb.new_aligned]
    · rw [hrows]
      exact hcells

end LocalNumpyIndex

namespace Session

variable (f32 : α → β) (dumps : ν → Bool)

/-- The store after an upsert, whether it returns or raises. -/
def upsert (s : Session β ν) (records : List (VectorRecord α ν)) : Session β ν :=
  match s.index.upsert f32 dumps s.files records with
  | (index, files, _) => ⟨index, files⟩

def upserts (dimension : ℕ) (batches : List (List (VectorRecord α ν))) : Session β ν :=
  batches.foldl (upsert f32 dumps) (opened dimension ⟨none, none⟩)

variable {f32 dumps}

theorem index_upsert {s : Session β ν} {records : List (VectorRecord α ν)}
    {index : LocalNumpyIndex β ν} (h : s.index.update f32 records = (index, none)) :
    (s.upsert f32 dumps records).index = index := by
  unfold upsert LocalNumpyIndex.upsert
  rw [h]

/-- The store is the dictionary of the records upserted so far. -/
theorem upserts_represents (dimension : ℕ) {batches : List (List (VectorRecord α ν))}
    (hwf : ∀ records ∈ batches, ∀ r ∈ records, r.WellFormed dimension)
    (honce : ∀ records ∈ batches, (records.filterMap VectorRecord.id).Nodup) :
    Represents dimension (upserts f32 dumps dimension batches).index
      (assignRecords f32 Dict.empty batches.flatten) := by
  induction batches using List.reverseRecOn with
  | nil => exact ⟨rfl, rfl, rfl⟩
  | append_singleton batches records ih =>
    have hlast : records ∈ batches ++ [records] := by simp
    have hbefore := ih (fun rs hrs => hwf rs (List.mem_append_left _ hrs))
      (fun rs hrs => honce rs (List.mem_append_left _ hrs))
    obtain ⟨index, hupdate, hafter⟩ :
        ∃ index, (upserts f32 dumps dimension batches).index.update f32 records = (index, none) ∧
          Represents dimension index
            (assignRecords f32 (assignRecords f32 Dict.empty batches.flatten) records) :=
      update_represents hbefore (hwf records hlast) (honce records hlast)
    have hindex : (upserts f32 dumps dimension (batches ++ [records])).index = index := by
      rw [upserts, List.foldl_concat]
      exact index_upsert hupdate
    rw [hindex, List.flatten_concat, assignRecords, List.foldl_append]
    exact hafter

end Session

/-! ## Answers -/

section Answers

variable [Ring β]

def hitOf (q : List β) (item : String × List β × Dict String ν) : QueryHit β ν :=
  ⟨item.1, dot item.2.1 q, item.2.2⟩

/-- The ids of a dictionary by first insertion. -/
def InsertedBefore (contents : Contents β ν) (a b : String) : Prop := [a, b].Sublist contents.keys

/-- The candidates from some row on, given the scores of all rows before it. -/
theorem scoreCandidates_zipIdx (accept : Dict String ν → Bool) (q : List β)
    {manifest : List (ManifestEntry ν)} {rows : List (List β)}
    (h : rows.length = manifest.length) (scored : List β) :
    scoreCandidates (scored ++ rows.map fun row => dot row q)
        ((manifest.zipIdx scored.length).filter fun c => accept c.1.metadata) =
      .ok (((cells manifest rows).filter fun item => accept item.2.2).map (hitOf q)) := by
  induction manifest generalizing rows scored with
  | nil => simp [scoreCandidates, cells]
  | cons entry manifest ih =>
    obtain ⟨row, rows, rfl⟩ := List.exists_cons_of_length_eq_add_one h
    have hlength : rows.length = manifest.length := Nat.succ_injective h
    have hrest := ih hlength (scored ++ [dot row q])
    rw [List.append_assoc, List.singleton_append, List.length_append,
      List.length_singleton] at hrest
    have hcells : cells (entry :: manifest) (row :: rows) =
        (entry.id, row, entry.metadata) :: cells manifest rows := rfl
    rw [hcells, List.zipIdx_cons, List.map_cons]
    cases haccept : accept entry.metadata with
    | false => simpa [haccept] using hrest
    | true =>
      rw [List.filter_cons_of_pos (by exact haccept), List.filter_cons_of_pos (by exact haccept),
        List.map_cons, scoreCandidates, List.getElem?_append_right le_rfl]
      simp [hrest, hitOf]

variable [LinearOrder β]

/-- A record comes before another: by score, and with equal scores by first insertion. -/
def RankedBefore (contents : Contents β ν) (a b : String) (scoreA scoreB : β) : Prop :=
  scoreB < scoreA ∨ scoreA = scoreB ∧ InsertedBefore contents a b

/-- The exact answer to a query for the `k` best matching records of a dictionary. -/
structure AnswersTopK (contents : Contents β ν) (q : List β) (accept : Dict String ν → Bool)
    (k : ℕ) (hits : List (QueryHit β ν)) : Prop where
  length : hits.length = min k (contents.entries.filter fun item => accept item.2.2).length
  current : ∀ hit ∈ hits, accept hit.metadata = true ∧
    ∃ row, contents.get? hit.id = some (row, hit.metadata) ∧ hit.score = dot row q
  once : (hits.map QueryHit.id).Nodup
  ordered : hits.Pairwise fun a b => RankedBefore contents a.id b.id a.score b.score
  best : ∀ id row metadata, contents.get? id = some (row, metadata) → accept metadata = true →
    id ∉ hits.map QueryHit.id →
      ∀ hit ∈ hits, RankedBefore contents hit.id id hit.score (dot row q)

theorem query_of_aligned {f32 : α → β} (null : ν) (eq : ν → ν → Bool)
    {index : LocalNumpyIndex β ν} (h : index.Aligned) {vector : List α}
    (hvector : vector.length = index.vectors.cols) (topK : ℤ) (filter : Option (Dict String ν)) :
    index.query f32 null eq vector topK filter =
      .ok (sliceTo topK (sortedBy (fun hit => -hit.score)
        (((cells index.manifest index.vectors.rows).filter fun item =>
          accepts null eq filter item.2.2).map (hitOf (vector.map f32))))) := by
  unfold LocalNumpyIndex.query
  split_ifs with hempty
  · have hnone : cells index.manifest index.vectors.rows = [] := by
      rw [hempty]
      rfl
    rw [hnone]
    simp [sliceTo, sortedBy]
  · have hscores := scoreCandidates_zipIdx (accepts null eq filter) (vector.map f32) h []
    rw [List.nil_append, List.length_nil] at hscores
    rw [NdArray.matVec, if_pos (by rw [List.length_map, hvector])]
    dsimp only
    rw [hscores]

/-- A query ranks the accepted items of the dictionary and cuts the ranking. -/
theorem query_eq {f32 : α → β} {null : ν} {eq : ν → ν → Bool} {dimension : ℕ}
    {index : LocalNumpyIndex β ν} {contents : Contents β ν}
    (h : Represents dimension index contents) {vector : List α}
    (hvector : vector.length = dimension) (topK : ℤ) (filter : Option (Dict String ν)) :
    index.query f32 null eq vector topK filter =
      .ok (sliceTo topK (sortedBy (fun hit => -hit.score)
        ((contents.entries.filter fun item => accepts null eq filter item.2.2).map
          (hitOf (vector.map f32))))) := by
  rw [← h.cells]
  exact query_of_aligned null eq h.aligned (hvector.trans h.cols.symm) topK filter

variable [IsOrderedRing β]

theorem answersTopK_take (contents : Contents β ν) (q : List β) (accept : Dict String ν → Bool)
    (k : ℕ) :
    AnswersTopK contents q accept k ((sortedBy (fun hit => -hit.score)
      ((contents.entries.filter fun item => accept item.2.2).map (hitOf q))).take k) := by
  let hits := (contents.entries.filter fun item => accept item.2.2).map (hitOf q)
  let ranking := sortedBy (fun hit : QueryHit β ν => -hit.score) hits
  have hkeys : (hits.map QueryHit.id).Sublist contents.keys := by
    rw [List.map_map]
    exact List.filter_sublist.map Prod.fst
  have hmem : ∀ hit, hit ∈ ranking ↔ ∃ item ∈ contents.entries,
      accept item.2.2 = true ∧ hitOf q item = hit := by
    intro hit
    simp [ranking, hits, and_assoc]
  have hranked : ranking.Pairwise fun a b => RankedBefore contents a.id b.id a.score b.score := by
    have hinserted : hits.Pairwise fun a b => InsertedBefore contents a.id b.id := by
      rw [List.pairwise_iff_forall_sublist]
      intro a b hab
      exact (hab.map QueryHit.id).trans hkeys
    apply (pairwise_sortedBy hinserted).imp
    rintro a b (hlt | ⟨heq, hbefore⟩)
    · exact Or.inl (neg_lt_neg_iff.mp hlt)
    · exact Or.inr ⟨neg_inj.mp heq, hbefore⟩
  constructor
  · rw [List.length_take, length_sortedBy, List.length_map]
  · intro hit hhit
    obtain ⟨item, hitem, haccept, rfl⟩ := (hmem hit).mp (List.mem_of_mem_take hhit)
    exact ⟨haccept, item.2.1, Dict.get?_eq_some_iff.mpr hitem, rfl⟩
  · have honce : (ranking.map QueryHit.id).Nodup := by
      rw [((perm_sortedBy _ hits).map QueryHit.id).nodup_iff]
      exact contents.nodup_keys.sublist hkeys
    exact honce.sublist ((List.take_sublist k ranking).map QueryHit.id)
  · exact hranked.sublist (List.take_sublist k ranking)
  · intro id row metadata hget haccept hid hit hhit
    have homitted : hitOf q (id, row, metadata) ∈ ranking :=
      (hmem _).mpr ⟨_, Dict.get?_eq_some_iff.mp hget, haccept, rfl⟩
    apply rel_of_mem_take hranked hhit homitted
    intro htaken
    exact hid (List.mem_map_of_mem htaken)

/-- After any upserts of batches without repeated ids, a query returns exactly the best
matching records of the dictionary of all records upserted. -/
theorem query_answersTopK (f32 : α → β) (dumps : ν → Bool) (null : ν) (eq : ν → ν → Bool)
    {dimension : ℕ} {batches : List (List (VectorRecord α ν))}
    (hwf : ∀ records ∈ batches, ∀ r ∈ records, r.WellFormed dimension)
    (honce : ∀ records ∈ batches, (records.filterMap VectorRecord.id).Nodup)
    {vector : List α} (hvector : vector.length = dimension) (topK : ℕ)
    (filter : Option (Dict String ν)) :
    ∃ hits, (Session.upserts f32 dumps dimension batches).index.query f32 null eq vector topK
        filter = .ok hits ∧
      AnswersTopK (assignRecords f32 Dict.empty batches.flatten) (vector.map f32)
        (accepts null eq filter) topK hits := by
  have hrep : Represents dimension (Session.upserts f32 dumps dimension batches).index
      (assignRecords f32 Dict.empty batches.flatten) :=
    Session.upserts_represents dimension hwf honce
  refine ⟨_, query_eq hrep hvector topK filter, ?_⟩
  rw [sliceTo, if_pos (Int.natCast_nonneg topK), Int.toNat_natCast]
  exact answersTopK_take _ _ _ topK

/-- Two upserts, the second of which moves a vector and adds one with the same score. -/
theorem query_answersTopK_two_batches :
    ∃ hits, (Session.upserts (id : ℤ → ℤ) (fun _ : String => true) 1
        [[⟨some "a", some [1], none⟩, ⟨some "b", some [3], none⟩],
          [⟨some "a", some [4], none⟩, ⟨some "c", some [4], none⟩]]).index.query
        id "" (· == ·) [2] (2 : ℕ) none = .ok hits ∧
      AnswersTopK (assignRecords id Dict.empty
        [⟨some "a", some [1], none⟩, ⟨some "b", some [3], none⟩,
          ⟨some "a", some [4], none⟩, ⟨some "c", some [4], none⟩]) [2]
        (accepts "" (· == ·) none) 2 hits := by
  have hwf : ∀ records ∈ ([[⟨some "a", some [1], none⟩, ⟨some "b", some [3], none⟩],
      [⟨some "a", some [4], none⟩, ⟨some "c", some [4], none⟩]] :
        List (List (VectorRecord ℤ String))), ∀ r ∈ records, r.WellFormed 1 := by
    intro records hrecords
    fin_cases hrecords <;> intro r hr <;> fin_cases hr <;> exact ⟨⟨_, rfl⟩, _, rfl, rfl⟩
  have hvector : [(2 : ℤ)].length = 1 := rfl
  exact query_answersTopK id (fun _ => true) "" (· == ·) hwf (by decide) hvector 2 none

end Answers

end LegalLens.Ingestion
