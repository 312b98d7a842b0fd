import LegalLens.Ingestion.IngestHandler

/-!
# Ingestion converges

Every value that the handler writes is determined by the key it is written at, because ids
are hashes of what they identify. So whatever the executions do in which order, each entry
of a store holds the value of its key, and once every task has been completed the set of
keys is fixed as well.
-/

namespace LegalLens.Ingestion

variable {β τ : Type*}

def ContractRow.withoutTime (row : ContractRow τ) : ContractRow Unit := ⟨row.filename, ()⟩

def ClauseRow.withoutTime (row : ClauseRow τ) : ClauseRow Unit :=
  ⟨row.category, row.text, row.riskLevel, row.riskRationale, row.vectorId, ()⟩

def Stores.contents (s : Stores β τ) : Stores β Unit :=
  ⟨fun cid => (s.contracts cid).map ContractRow.withoutTime,
    fun key => (s.clauses key).map ClauseRow.withoutTime, s.vectors⟩

/-- Equal keys come with equal values. -/
structure KeyDetermined (tasks : List IngestTask) : Prop where
  filename : ∀ t ∈ tasks, ∀ u ∈ tasks, t.payload.contractId = u.payload.contractId →
    t.payload.filename = u.payload.filename
  clause : ∀ t ∈ tasks, ∀ c ∈ t.payload.clauses, ∀ u ∈ tasks, ∀ d ∈ u.payload.clauses,
    c.clauseId = d.clauseId →
      t.payload.contractId = u.payload.contractId ∧ c.category = d.category ∧ c.text = d.text

namespace Stores

/-- Every entry holds what some task writes at its key. -/
structure Sound (embed : String → List β) (tasks : List IngestTask) (s : Stores β τ) : Prop where
  contracts : ∀ cid row, s.contracts cid = some row →
    ∃ t ∈ tasks, t.payload.contractId = cid ∧ row.withoutTime = ⟨t.payload.filename, ()⟩
  clauses : ∀ key row, s.clauses key = some row →
    ∃ t ∈ tasks, ∃ c ∈ t.payload.clauses, key = (t.payload.contractId, c.clauseId) ∧
      row.withoutTime = ⟨c.category, c.text, none, none, c.clauseId, ()⟩
  vectors : ∀ id cell, s.vectors id = some cell →
    ∃ t ∈ tasks, ∃ c ∈ t.payload.clauses, id = c.clauseId ∧
      cell = (embed c.text, ⟨t.payload.contractId, c.category⟩)

def HasContract (s : Stores β τ) (task : IngestTask) : Prop :=
  (s.contracts task.payload.contractId).isSome

def HasVectors (s : Stores β τ) (task : IngestTask) : Prop :=
  ∀ c ∈ task.payload.clauses, (s.vectors c.clauseId).isSome

def HasClauses (s : Stores β τ) (task : IngestTask) : Prop :=
  ∀ c ∈ task.payload.clauses, (s.clauses (task.payload.contractId, c.clauseId)).isSome

structure Grows (s s' : Stores β τ) : Prop where
  contracts : ∀ cid, (s.contracts cid).isSome → (s'.contracts cid).isSome
  clauses : ∀ key, (s.clauses key).isSome → (s'.clauses key).isSome
  vectors : ∀ id, (s.vectors id).isSome → (s'.vectors id).isSome

variable {embed : String → List β} {tasks : List IngestTask} {s s' : Stores β τ}

theorem grows_refl (s : Stores β τ) : s.Grows s := ⟨fun _ => id, fun _ => id, fun _ => id⟩

theorem Grows.trans {u : Stores β τ} (h : s.Grows s') (h' : s'.Grows u) : s.Grows u :=
  ⟨fun k hk => h'.contracts k (h.contracts k hk), fun k hk => h'.clauses k (h.clauses k hk),
    fun k hk => h'.vectors k (h.vectors k hk)⟩

theorem sound_empty : (empty : Stores β τ).Sound embed tasks :=
  ⟨(fun _ _ h => nomatch h), (fun _ _ h => nomatch h), (fun _ _ h => nomatch h)⟩

theorem upsertContract_spec (hs : s.Sound embed tasks) {task : IngestTask} (ht : task ∈ tasks)
    (now : τ) :
    let s' := s.upsertContract task.payload.contractId task.payload.filename now
    s'.Sound embed tasks ∧ s.Grows s' ∧ s'.HasContract task := by
  intro s'
  refine ⟨⟨?_, hs.clauses, hs.vectors⟩, ⟨?_, fun _ => id, fun _ => id⟩, ?_⟩
  · intro cid row h
    rcases KeyedWrites.update_eq_some_iff.mp h with ⟨rfl, rfl⟩ | ⟨-, h⟩
    · exact ⟨task, ht, rfl, rfl⟩
    · exact hs.contracts cid row h
  · intro cid h
    exact KeyedWrites.isSome_update_iff.mpr (Or.inr h)
  · exact KeyedWrites.isSome_update_iff.mpr (Or.inl rfl)

/-- A row that exists keeps its category, which is the one of the clause. -/
theorem upsertClause_spec (hkeys : KeyDetermined tasks) (hs : s.Sound embed tasks)
    {task : IngestTask} (ht : task ∈ tasks) {c : ParsedClause} (hc : c ∈ task.payload.clauses)
    (now : τ) :
    let s' := upsertClause task.payload.contractId now s c
    s'.Sound embed tasks ∧ s.Grows s' ∧
      (s'.clauses (task.payload.contractId, c.clauseId)).isSome := by
  intro s'
  refine ⟨⟨hs.contracts, ?_, hs.vectors⟩, ⟨fun _ => id, ?_, fun _ => id⟩, ?_⟩
  · intro key row h
    rcases KeyedWrites.update_eq_some_iff.mp h with ⟨rfl, rfl⟩ | ⟨-, h⟩
    · refine ⟨task, ht, c, hc, rfl, ?_⟩
      split
      · rfl
      next row hrow =>
        obtain ⟨u, hu, d, hd, hkey, hcontent⟩ := hs.clauses _ row hrow
        obtain ⟨-, hid⟩ := Prod.mk.inj hkey
        obtain ⟨-, hcat, -⟩ := hkeys.clause task ht c hc u hu d hd hid
        simp only [ClauseRow.withoutTime, ClauseRow.mk.injEq] at hcontent ⊢
        exact ⟨hcontent.1.trans hcat.symm, trivial, hcontent.2.2.1, hcontent.2.2.2.1, trivial,
          trivial⟩
    · exact hs.clauses key row h
  · intro key h
    exact KeyedWrites.isSome_update_iff.mpr (Or.inr h)
  · exact KeyedWrites.isSome_update_iff.mpr (Or.inl rfl)

/-- The transaction, for the clauses in any suffix of a task's list. -/
theorem upsertClauses_spec (hkeys : KeyDetermined tasks) (hs : s.Sound embed tasks)
    {task : IngestTask} (ht : task ∈ tasks) {clauses : List ParsedClause}
    (hclauses : ∀ c ∈ clauses, c ∈ task.payload.clauses) (now : τ) :
    let s' := s.upsertClauses task.payload.contractId clauses now
    s'.Sound embed tasks ∧ s.Grows s' ∧
      ∀ c ∈ clauses, (s'.clauses (task.payload.contractId, c.clauseId)).isSome := by
  induction clauses generalizing s with
  | nil => exact ⟨hs, grows_refl s, by simp⟩
  | cons c clauses ih =>
    obtain ⟨hs', hgrows, hc⟩ := upsertClause_spec hkeys hs ht (hclauses c (by simp)) now
    obtain ⟨hsound, hgrows', hrest⟩ := ih hs' fun d hd => hclauses d (by simp [hd])
    refine ⟨hsound, hgrows.trans hgrows', ?_⟩
    intro d hd
    rcases List.mem_cons.mp hd with rfl | hd
    · exact hgrows'.clauses _ hc
    · exact hrest d hd

theorem upsertVectors_spec (hs : s.Sound embed tasks) {task : IngestTask} (ht : task ∈ tasks) :
    let s' := s.upsertVectors (vectorRecords task.payload.contractId task.payload.clauses
      (task.payload.clauses.map fun c => embed c.text))
    s'.Sound embed tasks ∧ s.Grows s' ∧ s'.HasVectors task := by
  intro s'
  have hrecords := vectorRecords_embed embed task.payload.contractId task.payload.clauses
  refine ⟨⟨hs.contracts, hs.clauses, ?_⟩, ⟨fun _ => id, fun _ => id, ?_⟩, ?_⟩
  · intro id cell h
    rcases KeyedWrites.writeAll_eq_some h with hold | hnew
    · exact hs.vectors id cell hold
    · rw [hrecords, List.mem_map] at hnew
      obtain ⟨c, hc, heq⟩ := hnew
      obtain ⟨rfl, rfl⟩ := Prod.mk.inj heq
      exact ⟨task, ht, c, hc, rfl, rfl⟩
  · intro id h
    exact KeyedWrites.isSome_writeAll_iff.mpr (Or.inl h)
  · intro c hc
    apply KeyedWrites.isSome_writeAll_iff.mpr
    right
    rw [hrecords, List.map_map]
    exact List.mem_map.mpr ⟨c, hc, rfl⟩

def Complete (tasks : List IngestTask) (s : Stores β τ) : Prop :=
  ∀ t ∈ tasks, s.HasContract t ∧ s.HasVectors t ∧ s.HasClauses t

section Comparison

variable {u : Stores β τ}

theorem contracts_isSome (hs : s.Sound embed tasks) (hu : u.Complete tasks) {cid : String}
    (h : (s.contracts cid).isSome) : (u.contracts cid).isSome := by
  obtain ⟨row, hrow⟩ := Option.isSome_iff_exists.mp h
  obtain ⟨t, ht, rfl, -⟩ := hs.contracts cid row hrow
  exact (hu t ht).1

theorem clauses_isSome (hs : s.Sound embed tasks) (hu : u.Complete tasks)
    {key : String × String} (h : (s.clauses key).isSome) : (u.clauses key).isSome := by
  obtain ⟨row, hrow⟩ := Option.isSome_iff_exists.mp h
  obtain ⟨t, ht, c, hc, rfl, -⟩ := hs.clauses key row hrow
  exact (hu t ht).2.2 c hc

theorem vectors_isSome (hs : s.Sound embed tasks) (hu : u.Complete tasks) {id : String}
    (h : (s.vectors id).isSome) : (u.vectors id).isSome := by
  obtain ⟨cell, hcell⟩ := Option.isSome_iff_exists.mp h
  obtain ⟨t, ht, c, hc, rfl, -⟩ := hs.vectors id cell hcell
  exact (hu t ht).2.1 c hc

/-- Two stores that hold only what tasks write, and hold all of it, have the same contents. -/
theorem contents_eq (hkeys : KeyDetermined tasks) (hs : s.Sound embed tasks)
    (hu : u.Sound embed tasks) (hsall : s.Complete tasks) (huall : u.Complete tasks) :
    s.contents = u.contents := by
  unfold contents
  congr 1
  · funext cid
    apply KeyedWrites.map_eq_map (contracts_isSome hs huall) (contracts_isSome hu hsall)
    intro row row' hrow hrow'
    obtain ⟨t, ht, hcid, hcontent⟩ := hs.contracts cid row hrow
    obtain ⟨t', ht', hcid', hcontent'⟩ := hu.contracts cid row' hrow'
    rw [hcontent, hcontent', hkeys.filename t ht t' ht' (hcid.trans hcid'.symm)]
  · funext key
    apply KeyedWrites.map_eq_map (clauses_isSome hs huall) (clauses_isSome hu hsall)
    intro row row' hrow hrow'
    obtain ⟨t, ht, c, hc, hkey, hcontent⟩ := hs.clauses key row hrow
    obtain ⟨t', ht', c', hc', hkey', hcontent'⟩ := hu.clauses key row' hrow'
    obtain ⟨-, hid⟩ := Prod.mk.inj (hkey.symm.trans hkey')
    obtain ⟨-, hcategory, htext⟩ := hkeys.clause t ht c hc t' ht' c' hc' hid
    rw [hcontent, hcontent', hid, hcategory, htext]
  · funext vid
    suffices hmap : (s.vectors vid).map (fun cell => cell) = (u.vectors vid).map fun cell => cell by
      simpa using hmap
    apply KeyedWrites.map_eq_map (vectors_isSome hs huall) (vectors_isSome hu hsall)
    intro cell cell' hcell hcell'
    obtain ⟨t, ht, c, hc, hid, hcontent⟩ := hs.vectors vid cell hcell
    obtain ⟨t', ht', c', hc', hid', hcontent'⟩ := hu.vectors vid cell' hcell'
    obtain ⟨hcid, hcategory, htext⟩ := hkeys.clause t ht c hc t' ht' c' hc' (hid.symm.trans hid')
    rw [hcontent, hcontent', hcid, hcategory, htext]

end Comparison

end Stores

namespace Pipeline

variable {embed : String → List β} {tasks : List IngestTask} {s u : Pipeline β τ}

/-- What an execution has written by its stage. -/
def Wrote (embed : String → List β) (s : Stores β τ) (ex : Execution β) : Prop :=
  match ex.stage with
  | .contract => True
  | .embed => s.HasContract ex.task
  | .vectors embedded =>
    s.HasContract ex.task ∧ embedded = ex.task.payload.clauses.map fun c => embed c.text
  | .rows => s.HasContract ex.task ∧ s.HasVectors ex.task
  | .done => s.HasContract ex.task ∧ s.HasVectors ex.task ∧ s.HasClauses ex.task

theorem Wrote.mono {s s' : Stores β τ} (hgrows : s.Grows s') {ex : Execution β}
    (h : Wrote embed s ex) : Wrote embed s' ex := by
  unfold Wrote at h ⊢
  have hcontract : s.HasContract ex.task → s'.HasContract ex.task := hgrows.contracts _
  have hvectors : s.HasVectors ex.task → s'.HasVectors ex.task :=
    fun hv c hc => hgrows.vectors _ (hv c hc)
  have hclauses : s.HasClauses ex.task → s'.HasClauses ex.task :=
    fun hv c hc => hgrows.clauses _ (hv c hc)
  split at h
  · trivial
  · exact hcontract h
  · exact ⟨hcontract h.1, h.2⟩
  · exact ⟨hcontract h.1, hvectors h.2⟩
  · exact ⟨hcontract h.1, hvectors h.2.1, hclauses h.2.2⟩

/-- One step of one execution keeps the stores sound and fulfils its stage. -/
theorem execution_step_spec (hkeys : KeyDetermined tasks) {stores stores' : Stores β τ}
    (hs : stores.Sound embed tasks) {ex ex' : Execution β} (ht : ex.task ∈ tasks)
    (hwrote : Wrote embed stores ex) {now : τ}
    (h : ex.step embed now stores = some (ex', stores')) :
    ex'.task = ex.task ∧ stores'.Sound embed tasks ∧ stores.Grows stores' ∧
      Wrote embed stores' ex' := by
  obtain ⟨task, stage⟩ := ex
  unfold Wrote at hwrote
  cases stage with
  | contract =>
    cases h
    obtain ⟨hsound, hgrows, hhas⟩ := Stores.upsertContract_spec hs ht now
    refine ⟨rfl, hsound, hgrows, ?_⟩
    unfold Wrote
    dsimp only
    by_cases hnil : task.payload.clauses = []
    · rw [if_pos hnil]
      exact ⟨hhas, by simp [Stores.HasVectors, hnil], by simp [Stores.HasClauses, hnil]⟩
    · rw [if_neg hnil]
      exact hhas
  | embed =>
    cases h
    exact ⟨rfl, hs, Stores.grows_refl _, hwrote, rfl⟩
  | vectors embedded =>
    obtain ⟨hcontract, hembedded⟩ := hwrote
    dsimp only at hembedded
    subst hembedded
    cases h
    obtain ⟨hsound, hgrows, hhas⟩ := Stores.upsertVectors_spec hs ht
    exact ⟨rfl, hsound, hgrows, hgrows.contracts _ hcontract, hhas⟩
  | rows =>
    cases h
    obtain ⟨hsound, hgrows, hhas⟩ := Stores.upsertClauses_spec hkeys hs ht (fun _ => id) now
    exact ⟨rfl, hsound, hgrows, hgrows.contracts _ hwrote.1,
      fun c hc => hgrows.vectors _ (hwrote.2 c hc), hhas⟩
  | done => cases h

structure Inv (embed : String → List β) (tasks : List IngestTask) (s : Pipeline β τ) : Prop where
  sound : s.stores.Sound embed tasks
  wrote : ∀ e ex, s.executions e = some ex → ex.task ∈ tasks ∧ Wrote embed s.stores ex

theorem inv_start : Inv embed tasks (start : Pipeline β τ) :=
  ⟨Stores.sound_empty, fun _ _ h => nomatch h⟩

theorem inv_step (hkeys : KeyDetermined tasks) {a : Action τ} (hs : Inv embed tasks s)
    (h : s.step embed tasks a = some u) : Inv embed tasks u := by
  cases a with
  | begin e task =>
    obtain ⟨htask, -, rfl⟩ := eq_of_begin h
    refine ⟨hs.sound, fun f ex hf => ?_⟩
    rcases KeyedWrites.update_eq_some_iff.mp hf with ⟨-, rfl⟩ | ⟨-, hf⟩
    · exact ⟨htask, trivial⟩
    · exact hs.wrote f ex hf
  | step e now =>
    obtain ⟨ex, ex', stores', hex, hstep, rfl⟩ := eq_of_step h
    obtain ⟨ht, hwrote⟩ := hs.wrote e ex hex
    obtain ⟨htask, hsound, hgrows, hwrote'⟩ :=
      execution_step_spec hkeys hs.sound ht hwrote hstep
    refine ⟨hsound, fun f fx hf => ?_⟩
    rcases KeyedWrites.update_eq_some_iff.mp hf with ⟨-, rfl⟩ | ⟨-, hf⟩
    · exact ⟨htask ▸ ht, hwrote'⟩
    · obtain ⟨hft, hfw⟩ := hs.wrote f fx hf
      exact ⟨hft, hfw.mono hgrows⟩

theorem Inv.complete (hs : Inv embed tasks s) (hdone : s.Completed tasks) :
    s.stores.Complete tasks := by
  intro t ht
  obtain ⟨e, he⟩ := hdone t ht
  exact (hs.wrote e _ he).2

theorem inv_run (hkeys : KeyDetermined tasks) {acts : List (Action τ)}
    (hrun : Runs.run (step embed tasks) start acts = some s) : Inv embed tasks s :=
  Runs.invariant (fun _ _ _ hs h => inv_step hkeys hs h) inv_start hrun

theorem completed_step {a : Action τ} (hs : s.Completed tasks)
    (h : s.step embed tasks a = some u) : u.Completed tasks := by
  intro t ht
  obtain ⟨e, he⟩ := hs t ht
  refine ⟨e, ?_⟩
  cases a with
  | begin f task =>
    obtain ⟨-, hfresh, rfl⟩ := eq_of_begin h
    have hne : e ≠ f := by
      rintro rfl
      rw [he] at hfresh
      cases hfresh
    exact (Function.update_of_ne hne ..).trans he
  | step f now =>
    obtain ⟨ex, ex', stores', hex, hstep, rfl⟩ := eq_of_step h
    have hne : e ≠ f := by
      rintro rfl
      rw [he] at hex
      cases hex
      cases hstep
    exact (Function.update_of_ne hne ..).trans he

end Pipeline

/-- The tasks are built from contracts that the parser yields for the documents. -/
def FromParser (sha1 : String → BitVec 160) (docs : List CuadDocument) (tasks : List IngestTask) :
    Prop :=
  ∀ t ∈ tasks, ∃ doc ∈ docs, ∃ parsed ∈ parseCuad sha1 doc, t = ingestTask parsed

/-- Truncated SHA-1 is injective on the titles and on the clause keys that the parser hashes. -/
structure InjectiveOnHashed (sha1 : String → BitVec 160) (docs : List CuadDocument) : Prop where
  titles : ∀ d ∈ docs, ∀ x ∈ d.data, ∀ d' ∈ docs, ∀ y ∈ d'.data,
    contractId sha1 x.title = contractId sha1 y.title → x.title = y.title
  keys : ∀ k ∈ docs.flatMap (hashedKeys sha1), ∀ k' ∈ docs.flatMap (hashedKeys sha1),
    clauseDigest sha1 k = clauseDigest sha1 k' → k = k'

/-- Ids of parsed contracts and clauses determine everything that the handler writes. -/
theorem keyDetermined_of_fromParser {sha1 : String → BitVec 160} {docs : List CuadDocument}
    {tasks : List IngestTask} (htasks : FromParser sha1 docs tasks)
    (hsha1 : InjectiveOnHashed sha1 docs) : KeyDetermined tasks := by
  have hentry : ∀ t ∈ tasks, ∃ d ∈ docs, ∃ entry ∈ d.data,
      t = ingestTask (parseEntry sha1 entry) := by
    intro t ht
    obtain ⟨d, hd, parsed, hparsed, rfl⟩ := htasks t ht
    obtain ⟨entry, hentry, rfl⟩ := List.mem_map.mp hparsed
    exact ⟨d, hd, entry, hentry, rfl⟩
  constructor
  · intro t ht u hu hcid
    obtain ⟨d, hd, x, hx, rfl⟩ := hentry t ht
    obtain ⟨d', hd', y, hy, rfl⟩ := hentry u hu
    exact hsha1.titles d hd x hx d' hd' y hy hcid
  · intro t ht b hb u hu c hc hid
    obtain ⟨d, hd, x, hx, rfl⟩ := hentry t ht
    obtain ⟨d', hd', y, hy, rfl⟩ := hentry u hu
    have hbx : b ∈ entryClauses sha1 x := mem_unique hb
    have hcy : c ∈ entryClauses sha1 y := mem_unique hc
    obtain ⟨hbcid, hbid, hbbar⟩ := mem_entryClauses hbx
    obtain ⟨hccid, hcid, hcbar⟩ := mem_entryClauses hcy
    have hbkey : clauseKey b.contractId b.category b.text ∈ docs.flatMap (hashedKeys sha1) :=
      List.mem_flatMap.mpr ⟨d, hd, List.mem_flatMap.mpr ⟨x, hx, List.mem_map_of_mem hbx⟩⟩
    have hckey : clauseKey c.contractId c.category c.text ∈ docs.flatMap (hashedKeys sha1) :=
      List.mem_flatMap.mpr ⟨d', hd', List.mem_flatMap.mpr ⟨y, hy, List.mem_map_of_mem hcy⟩⟩
    rw [hbid, hcid] at hid
    have hlen : b.contractId.toList.length = c.contractId.toList.length := by
      rw [hbcid, hccid, length_contractId, length_contractId]
    obtain ⟨hsame, hdigest⟩ := clauseId_inj hlen hid
    have hkey := hsha1.keys _ hbkey _ hckey hdigest
    rw [hsame] at hkey
    refine ⟨?_, clauseKey_inj hbbar hcbar hkey⟩
    exact hbcid.symm.trans (hsame.trans hccid)

/-- Whatever the order, the repetitions and the executions that are cut off, once every task
has been completed the contents are the same, and further executions do not change them. -/
theorem ingestion_converges (sha1 : String → BitVec 160) (embed : String → List β)
    {docs : List CuadDocument} {tasks : List IngestTask} (htasks : FromParser sha1 docs tasks)
    (hsha1 : InjectiveOnHashed sha1 docs) :
    (∀ (acts acts' : List (Pipeline.Action τ)) (s s' : Pipeline β τ),
      Runs.run (Pipeline.step embed tasks) .start acts = some s →
      Runs.run (Pipeline.step embed tasks) .start acts' = some s' →
      s.Completed tasks → s'.Completed tasks → s.stores.contents = s'.stores.contents) ∧
    ∀ (acts more : List (Pipeline.Action τ)) (s u : Pipeline β τ),
      Runs.run (Pipeline.step embed tasks) .start acts = some s → s.Completed tasks →
      Runs.run (Pipeline.step embed tasks) s more = some u →
      u.stores.contents = s.stores.contents := by
  have hkeys := keyDetermined_of_fromParser htasks hsha1
  have hsame : ∀ s s' : Pipeline β τ, s.Inv embed tasks → s'.Inv embed tasks →
      s.Completed tasks → s'.Completed tasks → s.stores.contents = s'.stores.contents :=
    fun s s' hs hs' hdone hdone' =>
      Stores.contents_eq hkeys hs.sound hs'.sound (hs.complete hdone) (hs'.complete hdone')
  constructor
  · intro acts acts' s s' hrun hrun' hdone hdone'
    exact hsame s s' (Pipeline.inv_run hkeys hrun) (Pipeline.inv_run hkeys hrun') hdone hdone'
  · intro acts more s u hrun hdone hmore
    have hs := Pipeline.inv_run hkeys hrun
    have hu : u.Inv embed tasks :=
      Runs.invariant (fun _ _ _ ht h => Pipeline.inv_step hkeys ht h) hs hmore
    have hdone' : u.Completed tasks :=
      Runs.invariant (fun _ _ _ ht h => Pipeline.completed_step ht h) hdone hmore
    exact hsame u s hu hs hdone' hdone

/-- SHA-1 on the four strings that are hashed for the entries below. -/
def sampleSha1 (text : String) : BitVec 160 :=
  if text = "Supply Agreement.pdf" then 0x15db50f7a0616bf4ab7cd9f9671dfa76b98f3607
  else if text = "15db50f7a0616bf4|parties|Acme" then 0xf3c36fe176efe1ca21e15ff1778e9937dd448002
  else if text = "15db50f7a0616bf4|governing_law|Delaware" then
    0x53734225d0fbf4e65e081fe88fe10cf5c7621e81
  else if text = "15db50f7a0616bf4|parties|Zeta | Co." then
    0x2c08073f3ff629e2d15b05fe5c8d8d63fb731ee5
  else 0

def sampleQa (category text : String) : CuadQa :=
  ⟨"Clauses related to \"" ++ category ++ "\"", some [⟨some text, some 7⟩]⟩

def sampleEntry : CuadEntry :=
  ⟨"Supply Agreement.pdf", [⟨[sampleQa "Parties" "Acme", sampleQa "Governing Law" "Delaware"]⟩]⟩

def sampleEntry' : CuadEntry :=
  ⟨"Supply Agreement.pdf", [⟨[sampleQa "Parties" " Zeta | Co. "]⟩]⟩

def sampleDocument : CuadDocument := ⟨[sampleEntry, sampleEntry']⟩

theorem injectiveOnHashed_sample : InjectiveOnHashed sampleSha1 [sampleDocument] := by
  constructor
  · have htitle : ∀ z ∈ sampleDocument.data, z.title = "Supply Agreement.pdf" := by
      simp [sampleDocument, sampleEntry, sampleEntry']
    intro d hd x hx d' hd' y hy _
    cases List.mem_singleton.mp hd
    cases List.mem_singleton.mp hd'
    exact (htitle x hx).trans (htitle y hy).symm
  · decide +kernel

/-- One execution after the other, and an interleaving with an execution that is cut off. -/
theorem ingestion_converges_shared_title :
    let first := ingestTask (parseEntry sampleSha1 sampleEntry)
    let second := ingestTask (parseEntry sampleSha1 sampleEntry')
    let step := Pipeline.step (fun text => [text.length]) [first, second]
    let turns : List (Pipeline.Action ℕ) :=
      [.begin 0 first, .step 0 1, .step 0 2, .step 0 3, .step 0 4,
        .begin 1 second, .step 1 5, .step 1 6, .step 1 7, .step 1 8]
    let interleaved : List (Pipeline.Action ℕ) :=
      [.begin 0 second, .begin 1 first, .begin 2 first, .step 1 1, .step 0 2, .step 0 3,
        .step 2 4, .step 1 5, .step 0 6, .step 1 7, .step 0 8, .step 1 9]
    ∃ s s', Runs.run step .start turns = some s ∧ Runs.run step .start interleaved = some s' ∧
      s.stores.contents = s'.stores.contents := by
  intro first second step turns interleaved
  have hturns : ((Runs.run step .start turns).map fun s => [0, 1].map s.returned) =
      some [some first, some second] := by
    decide +kernel
  have hinterleaved : ((Runs.run step .start interleaved).map fun s => [1, 0].map s.returned) =
      some [some first, some second] := by
    decide +kernel
  obtain ⟨s, hs, hreturned⟩ := Option.map_eq_some_iff.mp hturns
  obtain ⟨s', hs', hreturned'⟩ := Option.map_eq_some_iff.mp hinterleaved
  have htasks : FromParser sampleSha1 [sampleDocument] [first, second] := by
    intro t ht
    have hparsed : t ∈ (parseCuad sampleSha1 sampleDocument).map ingestTask := ht
    obtain ⟨parsed, hmem, rfl⟩ := List.mem_map.mp hparsed
    exact ⟨_, List.mem_singleton_self _, parsed, hmem, rfl⟩
  exact ⟨s, s', hs, hs', (ingestion_converges sampleSha1 _ htasks injectiveOnHashed_sample).1
    turns interleaved s s' hs hs' (Pipeline.completed_of_returned hreturned)
    (Pipeline.completed_of_returned hreturned')⟩

end LegalLens.Ingestion
