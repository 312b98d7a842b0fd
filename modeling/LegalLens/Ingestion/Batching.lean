import LegalLens.Ingestion.RaisingUpsert

/-!
# Upserts in one batch or in two

The ids that the manifest has are looked up once, before the loop. An id that is new and
comes twice in a batch is therefore appended twice. Reading a store through the last row of
every id hides this, and so the contents of one batch are those of its parts; but the
manifest has every id once only if no batch repeats a new id.
-/

namespace LegalLens.Ingestion

open LocalNumpyIndex PointWrites

variable {α β ν : Type*}

theorem exists_of_mem_written {records : List (VectorRecord α ν)} {id : String}
    (h : id ∈ written records) : ∃ r ∈ records, r.id = some id := by
  obtain ⟨r, hr, hwritten⟩ := List.mem_filterMap.mp h
  obtain ⟨-, -, hid⟩ := Option.bind_eq_some_iff.mp hwritten
  exact ⟨r, hr, hid⟩

theorem lastWrites_of_last (f32 : α → β) (cols : ℕ)
    (contents : String → Option (List β × Dict String ν)) {before after : List (VectorRecord α ν)}
    {r : VectorRecord α ν} {id : String} {vec : List α} (hid : r.id = some id)
    (hvec : r.values = some vec) (hlast : ∀ r' ∈ after, r'.id ≠ some id) :
    lastWrites f32 cols contents (before ++ r :: after) id =
      some (NdArray.broadcast cols (vec.map f32), r.metadata.getD Dict.empty) := by
  have hafter : id ∉ written after := by
    intro hmem
    obtain ⟨r', hr', hid'⟩ := exists_of_mem_written hmem
    exact hlast r' hr' hid'
  rw [lastWrites_append]
  have hstep : ∀ c : String → Option (List β × Dict String ν),
      lastWrites f32 cols c (r :: after) = lastWrites f32 cols (write f32 cols c r) after :=
    fun _ => rfl
  rw [hstep, lastWrites_of_notMem_written hafter, write, hid, hvec]
  exact Function.update_self ..

namespace LocalNumpyIndex

variable {f32 : α → β} {index : LocalNumpyIndex β ν}

/-- The ids that a batch gives values to and the manifest does not have, with repetitions. -/
def newIds (index : LocalNumpyIndex β ν) (records : List (VectorRecord α ν)) : List String :=
  (written records).filter fun id => id ∉ index.ids

theorem newIds_append (index : LocalNumpyIndex β ν) (a b : List (VectorRecord α ν)) :
    newIds index (a ++ b) = newIds index a ++ newIds index b := by
  simp [newIds, written]

theorem map_id_overwrittenManifest (done : List (VectorRecord α ν)) :
    (overwrittenManifest f32 index done).map ManifestEntry.id = index.ids := by
  unfold overwrittenManifest
  rw [map_writeAll, List.map_map, ← ids]
  apply writeAll_eq_self
  intro w hw
  obtain ⟨w, hmem, rfl⟩ := List.mem_map.mp hw
  obtain ⟨r, -, hover⟩ := List.mem_filterMap.mp hmem
  obtain ⟨id, vec, -, -, hidx, hentry⟩ := overwrite?_eq_some_iff.mp hover
  have hread := LastWins.getElem?_of_lastIndex hidx
  simpa [hentry] using hread

theorem map_id_additions (records : List (VectorRecord α ν)) :
    ((records.filterMap (addition? f32 index)).map fun w => w.2.id) = newIds index records := by
  unfold newIds written
  rw [List.map_filterMap, List.filter_filterMap]
  congr 1
  funext r
  unfold addition? VectorRecord.written
  cases r.values with
  | none => rfl
  | some vec =>
    cases r.id with
    | none => rfl
    | some id =>
      by_cases hmem : id ∈ index.ids <;> simp [Option.filter, hmem]

/-- What an upsert does to the shape of the store, whether it returns or raises. -/
theorem update_shape (f32 : α → β) (hal : index.Aligned) (records : List (VectorRecord α ν)) :
    (index.update f32 records).1.Aligned ∧
      (index.update f32 records).1.vectors.cols = index.vectors.cols ∧
      ((index.update f32 records).1.ids = index.ids ∨
        (index.update f32 records).1.ids = index.ids ++ newIds index records) := by
  obtain ⟨index', e, hupdate, -, hcols, ⟨-, -, hrows, hmanifest⟩ | ⟨-, -, hrows, hmanifest⟩⟩ :=
    update_cases f32 index records
  · rw [hupdate]
    refine ⟨?_, hcols, Or.inr ?_⟩
    · unfold Aligned at hal ⊢
      rw [hrows, hmanifest]
      simp [hal]
    · rw [ids, hmanifest, List.map_append, map_id_overwrittenManifest, List.map_map]
      congr 1
      exact map_id_additions records
  · rw [hupdate]
    refine ⟨?_, hcols, Or.inl ?_⟩
    · unfold Aligned at hal ⊢
      rw [hrows, hmanifest]
      simp [hal]
    · rw [ids, hmanifest, map_id_overwrittenManifest]

theorem fits_of_wellFormed (hal : index.Aligned) {r : VectorRecord α ν}
    (hr : r.WellFormed index.vectors.cols) : Fits f32 index r := by
  obtain ⟨⟨id, hid⟩, vec, hvec, hlen⟩ := hr
  have hrow : (vec.map f32).length = index.vectors.cols := by rw [List.length_map, hlen]
  constructor
  · unfold getsThrough
    rw [hvec, hid]
    dsimp only
    cases hidx : LastWins.lastIndex id index.ids with
    | none => rfl
    | some idx =>
      have hlt : idx < index.vectors.rows.length := by
        rw [hal]
        simpa [ids] using LastWins.lastIndex_lt hidx
      exact decide_eq_true ⟨hlt, by rw [NdArray.broadcast_of_length_eq hrow, hrow]⟩
  · intro row entry hadd
    unfold addition? at hadd
    rw [hvec, hid] at hadd
    dsimp only at hadd
    split_ifs at hadd
    cases hadd
    exact hrow

theorem update_of_wellFormed (f32 : α → β) (hal : index.Aligned)
    {records : List (VectorRecord α ν)}
    (hwf : ∀ r ∈ records, r.WellFormed index.vectors.cols) :
    Upserted f32 index records (index.update f32 records).1 ∧
      (index.update f32 records).1.ids = index.ids ++ newIds index records := by
  obtain ⟨index', e, hupdate, -, -, ⟨rfl, -, -, hmanifest⟩ | ⟨-, hnot, -⟩⟩ :=
    update_cases f32 index records
  · rw [hupdate]
    refine ⟨update_spec hal hupdate, ?_⟩
    rw [ids, hmanifest, List.map_append, map_id_overwrittenManifest, List.map_map]
    congr 1
    exact map_id_additions records
  · exact absurd (fun r hr => fits_of_wellFormed hal (hwf r hr)) hnot

theorem nodup_ids_append_iff (hids : index.ids.Nodup) (records : List (VectorRecord α ν)) :
    (index.ids ++ newIds index records).Nodup ↔ (newIds index records).Nodup := by
  rw [List.nodup_append]
  constructor
  · rintro ⟨-, hnew, -⟩
    exact hnew
  · intro hnew
    refine ⟨hids, hnew, ?_⟩
    rintro id hid id' hid' rfl
    exact (of_decide_eq_true (List.mem_filter.mp hid').2) hid

theorem nodup_newIds_of_append {index' : LocalNumpyIndex β ν} {a b : List (VectorRecord α ν)}
    (hids : index'.ids = index.ids ++ newIds index a) (h : (newIds index (a ++ b)).Nodup) :
    (newIds index a).Nodup ∧ (newIds index' b).Nodup := by
  rw [newIds_append] at h
  obtain ⟨ha, hb, -⟩ := List.nodup_append.mp h
  refine ⟨ha, hb.sublist ?_⟩
  apply List.monotone_filter_right
  intro id hid
  have hnotin : id ∉ index'.ids := of_decide_eq_true hid
  rw [hids, List.mem_append, not_or] at hnotin
  exact decide_eq_true hnotin.1

end LocalNumpyIndex

namespace Session

variable {f32 : α → β} {dumps : ν → Bool}

theorem index_upsert_eq (f32 : α → β) (dumps : ν → Bool) (s : Session β ν)
    (records : List (VectorRecord α ν)) :
    (s.upsert f32 dumps records).index = (s.index.update f32 records).1 := by
  unfold upsert LocalNumpyIndex.upsert
  obtain ⟨index, e⟩ := s.index.update f32 records
  cases e <;> rfl

/-- No batch gives values twice to an id that is new to the store it meets. -/
def NewIdsOnce (f32 : α → β) (dumps : ν → Bool) (dimension : ℕ)
    (batches : List (List (VectorRecord α ν))) : Prop :=
  ∀ before records rest, batches = before ++ records :: rest →
    (newIds (upserts f32 dumps dimension before).index records).Nodup

theorem aligned_upserts (f32 : α → β) (dumps : ν → Bool) (dimension : ℕ)
    (batches : List (List (VectorRecord α ν))) :
    (upserts f32 dumps dimension batches).index.Aligned ∧
      (upserts f32 dumps dimension batches).index.vectors.cols = dimension := by
  induction batches using List.reverseRecOn with
  | nil => exact ⟨rfl, rfl⟩
  | append_singleton batches records ih =>
    obtain ⟨hal, hcols⟩ := ih
    rw [upserts, List.foldl_concat, ← upserts, index_upsert_eq]
    obtain ⟨hal', hcols', -⟩ := update_shape f32 hal records
    exact ⟨hal', hcols'.trans hcols⟩

theorem nodup_ids_upserts {dimension : ℕ} {batches : List (List (VectorRecord α ν))}
    (h : NewIdsOnce f32 dumps dimension batches) :
    (upserts f32 dumps dimension batches).index.ids.Nodup := by
  induction batches using List.reverseRecOn with
  | nil => exact List.nodup_nil
  | append_singleton batches records ih =>
    have hids := ih fun before rs rest heq => h before rs (rest ++ [records]) (by simp [heq])
    have hnew := h batches records [] rfl
    rw [upserts, List.foldl_concat, ← upserts, index_upsert_eq]
    obtain ⟨hal, -⟩ := aligned_upserts f32 dumps dimension batches
    obtain ⟨-, -, hids' | hids'⟩ := update_shape f32 hal records
    · rwa [hids']
    · rw [hids']
      exact (nodup_ids_append_iff hids records).mpr hnew

/-- After any upserts of which none repeats a new id, and for any two lists of well-formed
records: one upsert of both lists leaves the contents of two upserts, with every id once in
the manifest and every id holding its last record, exactly if the two lists together do not
repeat a new id. -/
theorem upsert_append_iff (f32 : α → β) (dumps : ν → Bool) {dimension : ℕ}
    {batches : List (List (VectorRecord α ν))} (hbatches : NewIdsOnce f32 dumps dimension batches)
    {a b : List (VectorRecord α ν)} (ha : ∀ r ∈ a, r.WellFormed dimension)
    (hb : ∀ r ∈ b, r.WellFormed dimension) :
    let s := upserts f32 dumps dimension batches
    let once := (s.upsert f32 dumps (a ++ b)).index
    let twice := ((s.upsert f32 dumps a).upsert f32 dumps b).index
    (once.lookup = twice.lookup ∧ once.ids.Nodup ∧ twice.ids.Nodup ∧
      (∀ before r after id vec, a ++ b = before ++ r :: after → r.id = some id →
        r.values = some vec → (∀ r' ∈ after, r'.id ≠ some id) →
          once.lookup id = some (vec.map f32, r.metadata.getD Dict.empty)) ∧
      ∀ id, (∀ r ∈ a ++ b, r.id ≠ some id) → once.lookup id = s.index.lookup id) ↔
      (newIds s.index (a ++ b)).Nodup := by
  intro s once twice
  obtain ⟨hal, hcols⟩ := aligned_upserts f32 dumps dimension batches
  have hids := nodup_ids_upserts hbatches
  rw [← hcols] at ha hb
  have hab : ∀ r ∈ a ++ b, r.WellFormed s.index.vectors.cols :=
    List.forall_mem_append.mpr ⟨ha, hb⟩
  obtain ⟨honce, honceids⟩ := update_of_wellFormed f32 hal hab
  obtain ⟨hfirst, hfirstids⟩ := update_of_wellFormed f32 hal ha
  have hb' : ∀ r ∈ b, r.WellFormed (s.index.update f32 a).1.vectors.cols := by
    rw [hfirst.cols]
    exact hb
  obtain ⟨htwice, htwiceids⟩ := update_of_wellFormed f32 hfirst.aligned hb'
  have honce_eq : once = (s.index.update f32 (a ++ b)).1 := index_upsert_eq f32 dumps s (a ++ b)
  have htwice_eq : twice = ((s.index.update f32 a).1.update f32 b).1 := by
    rw [← index_upsert_eq f32 dumps s a]
    exact index_upsert_eq f32 dumps _ b
  rw [← honce_eq] at honce honceids
  rw [← htwice_eq] at htwice htwiceids
  constructor
  · rintro ⟨-, hnodup, -⟩
    rw [honceids] at hnodup
    exact (nodup_ids_append_iff hids _).mp hnodup
  · intro hnew
    refine ⟨?_, ?_, ?_, ?_, ?_⟩
    · rw [honce.lookup, htwice.lookup, hfirst.lookup, hfirst.cols, lastWrites_append]
    · rw [honceids]
      exact (nodup_ids_append_iff hids _).mpr hnew
    · obtain ⟨hnewa, hnewb⟩ := nodup_newIds_of_append hfirstids hnew
      have hfirstnodup : (s.index.update f32 a).1.ids.Nodup := by
        rw [hfirstids]
        exact (nodup_ids_append_iff hids a).mpr hnewa
      rw [htwiceids]
      exact (nodup_ids_append_iff hfirstnodup b).mpr hnewb
    · intro before r after id vec heq hid hvec hlast
      have hr : r.WellFormed s.index.vectors.cols := hab r (heq ▸ by simp)
      obtain ⟨-, vec', hvec', hlen⟩ := hr
      cases hvec.symm.trans hvec'
      rw [honce.lookup, heq, lastWrites_of_last f32 _ _ hid hvec hlast,
        NdArray.broadcast_of_length_eq (by rw [List.length_map, hlen])]
    · intro id hid
      rw [honce.lookup]
      apply lastWrites_of_notMem_written
      intro hmem
      obtain ⟨r, hr, hrid⟩ := exists_of_mem_written hmem
      exact hid r hr hrid

/-- A second batch that moves a vector, and one record for each of two new ids. -/
theorem upsert_append_iff_two_lists :
    let s := upserts (id : ℤ → ℤ) (fun _ : String => true) 1 [[⟨some "a", some [1], none⟩]]
    let a : List (VectorRecord ℤ String) := [⟨some "b", some [2], none⟩, ⟨some "a", some [3], none⟩]
    let b : List (VectorRecord ℤ String) := [⟨some "a", some [4], none⟩, ⟨some "c", some [5], none⟩]
    (s.upsert id (fun _ => true) (a ++ b)).index.ids.Nodup ∧
      (s.upsert id (fun _ => true) (a ++ b)).index.lookup "a" = some ([4], Dict.empty) := by
  intro s a b
  have hbatches : NewIdsOnce (id : ℤ → ℤ) (fun _ : String => true) 1
      [[⟨some "a", some [1], none⟩]] := by
    intro before records rest heq
    cases before with
    | nil =>
      cases heq
      decide
    | cons r before => simp at heq
  have ha : ∀ r ∈ a, r.WellFormed 1 :=
    List.forall_mem_cons.mpr ⟨⟨⟨_, rfl⟩, _, rfl, rfl⟩,
      List.forall_mem_singleton.mpr ⟨⟨_, rfl⟩, _, rfl, rfl⟩⟩
  have hb : ∀ r ∈ b, r.WellFormed 1 :=
    List.forall_mem_cons.mpr ⟨⟨⟨_, rfl⟩, _, rfl, rfl⟩,
      List.forall_mem_singleton.mpr ⟨⟨_, rfl⟩, _, rfl, rfl⟩⟩
  obtain ⟨-, hnodup, -, hlast, -⟩ :=
    (upsert_append_iff id (fun _ => true) hbatches ha hb).mpr (by decide)
  refine ⟨hnodup, hlast (a ++ []) ⟨some "a", some [4], none⟩ [⟨some "c", some [5], none⟩]
    "a" [4] rfl rfl rfl ?_⟩
  simp

/-- A new id that comes twice in one batch is in the manifest twice, with both vectors. -/
theorem repeated_new_id_twice :
    let s := upserts (id : ℤ → ℤ) (fun _ : String => true) 1 []
    let a : List (VectorRecord ℤ String) := [⟨some "a", some [1], none⟩]
    let b : List (VectorRecord ℤ String) := [⟨some "a", some [2], none⟩]
    (s.upsert id (fun _ => true) (a ++ b)).index.ids = ["a", "a"] ∧
      (s.upsert id (fun _ => true) (a ++ b)).index.vectors.rows = [[1], [2]] ∧
      ((s.upsert id (fun _ => true) a).upsert id (fun _ => true) b).index.ids = ["a"] ∧
      ((s.upsert id (fun _ => true) a).upsert id (fun _ => true) b).index.vectors.rows =
        [[2]] := by
  decide

end Session

end LegalLens.Ingestion
