import LegalLens.Ingestion.CrashConsistency
import LegalLens.Library.JsonCut
import LegalLens.Library.JsonDump

/-!
# The manifest file as a text

The manifest is written with `json.dumps` and read with `json.loads`. Elsewhere the file stands
for the value it decodes to. Here it is the text, and a process that dies is followed by one that
opens the store again. Both views of the store agree after any sequence of upserts and crashes
before, between or after the two writes. A process may also die inside `write_text`, when the file
has a part of the text only; such a manifest is never read as another one.
-/

namespace LegalLens.Ingestion

open JsonText LocalNumpyIndex

variable {α β : Type*} {limit : ℕ}

/-- A value that `json.dumps` writes inside a manifest and `json.loads` reads back: it is not nested
too deep, and has no integer with too many digits. -/
def Storable (limit : ℕ) (v : Value) : Prop :=
  v.json.depth + 3 ≤ limit ∧ v.json.within IntText.maxStrDigits = true

instance (limit : ℕ) : DecidablePred (Storable limit) := fun _ =>
  inferInstanceAs (Decidable (_ ∧ _))

abbrev Metadata (limit : ℕ) := {v : Value // Storable limit v}

def ManifestEntry.value (e : ManifestEntry (Metadata limit)) : Value :=
  .object
    [("id".toList, .string e.id.toList),
      ("metadata".toList, .object (e.metadata.entries.map fun kv => (kv.1.toList, kv.2.1)))]

/-- `json.dumps(self.manifest)`. -/
def manifestText (manifest : List (ManifestEntry (Metadata limit))) : String :=
  String.ofList (ascii.dumps (.array (manifest.map ManifestEntry.value)))

/-! ## Reading -/

def metadataMember (limit : ℕ) (m : List Char × Value) : Option (String × Metadata limit) :=
  if h : Storable limit m.2 then some (String.ofList m.1, ⟨m.2, h⟩) else none

def entryOfValue (limit : ℕ) : Value → Option (ManifestEntry (Metadata limit))
  | .object ms =>
    match LastWins.lookup "id".toList ms, LastWins.lookup "metadata".toList ms with
    | some (.string id), some (.object members) =>
      (members.mapM (metadataMember limit)).map fun members =>
        ⟨String.ofList id, Dict.ofList members⟩
    | _, _ => none
  | _ => none

/-- `json.loads` of the text of a manifest. -/
def readManifest (limit : ℕ) (text : String) : Option (List (ManifestEntry (Metadata limit))) := do
  let json ← loadsInts IntText.maxStrDigits nonFinite limit text.toList
  match ← Value.ofJson json with
  | .array vs => vs.mapM (entryOfValue limit)
  | _ => none

theorem entryOfValue_value (e : ManifestEntry (Metadata limit)) :
    entryOfValue limit e.value = some e := by
  have hmembers : (e.metadata.entries.map fun kv => (kv.1.toList, kv.2.1)).mapM
      (metadataMember limit) = some e.metadata.entries := by
    induction e.metadata.entries with
    | nil => rfl
    | cons kv entries ih =>
      have hkv : metadataMember limit (kv.1.toList, kv.2.1) = some kv := by
        rw [metadataMember, dif_pos kv.2.2, String.ofList_toList]
      simp [hkv, ih]
  calc entryOfValue limit e.value
      = ((e.metadata.entries.map fun kv => (kv.1.toList, kv.2.1)).mapM (metadataMember limit)).map
          fun members => ⟨String.ofList e.id.toList, Dict.ofList members⟩ := rfl
    _ = some e := by
        rw [hmembers, Option.map_some, Dict.ofList_entries, String.ofList_toList]

theorem depth_value_le (h : 3 ≤ limit) (e : ManifestEntry (Metadata limit)) :
    e.value.json.depth + 1 ≤ limit := by
  have hmembers : depthMembers (jsonMembers
      (e.metadata.entries.map fun kv => (kv.1.toList, kv.2.1))) + 3 ≤ limit := by
    induction e.metadata.entries with
    | nil => exact h
    | cons kv entries ih =>
      have hkv := kv.2.2.1
      simp only [List.map_cons, jsonMembers, depthMembers]
      omega
  simp only [ManifestEntry.value, Value.json, jsonMembers, Json.depth, depthMembers]
  omega

theorem depth_manifest_le (h : 3 ≤ limit) (manifest : List (ManifestEntry (Metadata limit))) :
    (Value.array (manifest.map ManifestEntry.value)).json.depth ≤ limit := by
  have helements : depthElements (jsonElements (manifest.map ManifestEntry.value)) + 1 ≤ limit := by
    induction manifest with
    | nil => exact (Nat.le_of_ble_eq_true rfl).trans h
    | cons e manifest ih =>
      have he := depth_value_le h e
      simp only [List.map_cons, jsonElements, depthElements]
      omega
  exact helements

theorem within_manifest (manifest : List (ManifestEntry (Metadata limit))) :
    (Value.array (manifest.map ManifestEntry.value)).json.within IntText.maxStrDigits = true := by
  have hmembers : ∀ entries : List (String × Metadata limit),
      withinMembers IntText.maxStrDigits
        (jsonMembers (entries.map fun kv => (kv.1.toList, kv.2.1))) = true := by
    intro entries
    induction entries with
    | nil => rfl
    | cons kv entries ih => simp [jsonMembers, withinMembers, kv.2.2.2, ih]
  rw [Value.json, Json.within]
  induction manifest with
  | nil => rfl
  | cons e manifest ih =>
    simp [jsonElements, withinElements, ManifestEntry.value, Value.json, jsonMembers, Json.within,
      withinMembers, hmembers, ih]

theorem readManifest_manifestText (h : 3 ≤ limit)
    (manifest : List (ManifestEntry (Metadata limit))) :
    readManifest limit (manifestText manifest) = some manifest := by
  have hentries : (manifest.map ManifestEntry.value).mapM (entryOfValue limit) = some manifest := by
    induction manifest with
    | nil => rfl
    | cons e manifest ih => simp [entryOfValue_value, ih]
  rw [readManifest, manifestText, String.toList_ofList,
    loadsInts_of_loads (ascii.loads_dumps nonFinite (depth_manifest_le h manifest))
      (within_manifest manifest)]
  simp only [Option.bind_eq_bind, Option.bind_some, Value.ofJson_json, hentries]

theorem readManifest_cut (h : 3 ≤ limit) (manifest : List (ManifestEntry (Metadata limit)))
    {cut more : List Char} (htext : (manifestText manifest).toList = cut ++ more)
    (hmore : more ≠ []) : readManifest limit (String.ofList cut) = none := by
  have hreads := ascii.reads_dumps (.array (manifest.map ManifestEntry.value)) []
  rw [manifestText, String.toList_ofList] at htext
  rw [htext, List.append_nil] at hreads
  rw [readManifest, loadsInts, String.toList_ofList,
    loads_cut hreads (depth_manifest_le h manifest) hmore]
  rfl

/-! ## The store over the lives of its processes -/

structure TextFiles (β : Type*) where
  vectors : Option (NdArray β)
  manifest : Option String

namespace TextFiles

/-- What the files decode to; `none` if the manifest cannot be read. -/
def load (limit : ℕ) (files : TextFiles β) : Option (Files β (Metadata limit)) :=
  match files.manifest with
  | none => some ⟨files.vectors, none⟩
  | some text => (readManifest limit text).map fun manifest => ⟨files.vectors, some manifest⟩

/-- The constructor; `none` where `json.loads` raises. -/
def init (limit dimension : ℕ) (files : TextFiles β) :
    Option (LocalNumpyIndex β (Metadata limit)) :=
  match files.vectors, files.manifest with
  | some vectors, some text =>
    (readManifest limit text).map fun manifest => ⟨dimension, vectors, manifest⟩
  | _, _ => some ⟨dimension, .zeros dimension, []⟩

def saveVectors (index : LocalNumpyIndex β (Metadata limit)) (files : TextFiles β) :
    TextFiles β :=
  { files with vectors := some index.vectors }

def writeManifest (index : LocalNumpyIndex β (Metadata limit)) (files : TextFiles β) :
    TextFiles β :=
  { files with manifest := some (manifestText index.manifest) }

variable {files : TextFiles β} {decoded : Files β (Metadata limit)}

theorem init_of_load (h : files.load limit = some decoded) (dimension : ℕ) :
    files.init limit dimension = some (LocalNumpyIndex.init dimension decoded) := by
  obtain ⟨vectors, manifest⟩ := files
  cases manifest with
  | none =>
    cases h
    cases vectors <;> rfl
  | some text =>
    obtain ⟨manifest, hread, rfl⟩ := Option.map_eq_some_iff.mp h
    cases vectors with
    | none => rfl
    | some vectors =>
      exact congrArg (Option.map (LocalNumpyIndex.mk dimension vectors)) hread

theorem load_saveVectors (h : files.load limit = some decoded)
    (index : LocalNumpyIndex β (Metadata limit)) :
    (files.saveVectors index).load limit = some (index.saveVectors decoded) := by
  obtain ⟨vectors, manifest⟩ := files
  cases manifest with
  | none =>
    cases h
    rfl
  | some text =>
    obtain ⟨manifest, hread, rfl⟩ := Option.map_eq_some_iff.mp h
    exact congrArg (Option.map fun m => Files.mk (some index.vectors) (some m)) hread

theorem load_persisted (hlimit : 3 ≤ limit) (index : LocalNumpyIndex β (Metadata limit))
    (files : TextFiles β) :
    ((files.saveVectors index).writeManifest index).load limit =
      some ⟨some index.vectors, some index.manifest⟩ :=
  congrArg (Option.map fun m => Files.mk (some index.vectors) (some m))
    (readManifest_manifestText hlimit index.manifest)

end TextFiles

/-- What happens to the store: an upsert is completed, or a process dies in one and the next
process opens the store. -/
inductive StoreEvent (α ν : Type*) where
  | upsert (records : List (VectorRecord α ν))
  | crash (records : List (VectorRecord α ν)) (point : Session.CrashPoint)

/-- A process that has opened the store, with the files as they are stored. -/
structure TextSession (β : Type*) (limit : ℕ) where
  index : LocalNumpyIndex β (Metadata limit)
  files : TextFiles β

variable (f32 : α → β) (dimension : ℕ)

namespace TextSession

def start : TextSession β limit := ⟨⟨dimension, .zeros dimension, []⟩, ⟨none, none⟩⟩

def upsert (s : TextSession β limit) (records : List (VectorRecord α (Metadata limit))) :
    Option (TextSession β limit) :=
  match s.index.update f32 records with
  | (index, none) => some ⟨index, (s.files.saveVectors index).writeManifest index⟩
  | (_, some _) => none

def crash (s : TextSession β limit) (records : List (VectorRecord α (Metadata limit))) :
    Session.CrashPoint → Option (TextFiles β)
  | .beforeSave => some s.files
  | .betweenWrites =>
    match s.index.update f32 records with
    | (index, none) => some (s.files.saveVectors index)
    | (_, some _) => none
  | .afterWrites => (s.upsert f32 records).map TextSession.files

/-- The files after the death of a process inside `write_text`, which has truncated the file of the
manifest and has written some characters. -/
def torn (s : TextSession β limit) (records : List (VectorRecord α (Metadata limit)))
    (written : ℕ) : Option (TextFiles β) :=
  match s.index.update f32 records with
  | (index, none) =>
    some { s.files.saveVectors index with
      manifest := some (String.ofList ((manifestText index.manifest).toList.take written)) }
  | (_, some _) => none

def step (s : TextSession β limit) :
    StoreEvent α (Metadata limit) → Option (TextSession β limit)
  | .upsert records => s.upsert f32 records
  | .crash records point =>
    (s.crash f32 records point).bind fun files =>
      (files.init limit dimension).map fun index => ⟨index, files⟩

end TextSession

/-- The same events when the files are represented by the values they decode to. -/
def Session.life (s : Session β (Metadata limit)) :
    StoreEvent α (Metadata limit) → Option (Session β (Metadata limit))
  | .upsert records => s.step f32 (fun _ => true) records
  | .crash records point =>
    (s.crash f32 (fun _ => true) records point).map (Session.opened dimension)

/-- The index is the same, and the files decode to the values. -/
def TextSession.Represents (t : TextSession β limit) (s : Session β (Metadata limit)) : Prop :=
  t.index = s.index ∧ t.files.load limit = some s.files

section Represents

variable {dimension} {t : TextSession β limit} {s : Session β (Metadata limit)}

theorem Session.step_eq (s : Session β (Metadata limit))
    (records : List (VectorRecord α (Metadata limit))) :
    s.step f32 (fun _ => true) records =
      match s.index.update f32 records with
      | (index, none) => some ⟨index, ⟨some index.vectors, some index.manifest⟩⟩
      | (_, some _) => none := by
  have hall : ∀ index : LocalNumpyIndex β (Metadata limit),
      (index.manifest.all fun m => m.metadata.values.all fun _ => true) = true := by
    simp
  unfold Session.step LocalNumpyIndex.upsert
  rcases s.index.update f32 records with ⟨index, _ | e⟩
  · simp only [persist, hall, if_true]
    rfl
  · rfl

theorem TextSession.Represents.upsert (hlimit : 3 ≤ limit) (h : t.Represents s)
    (records : List (VectorRecord α (Metadata limit))) :
    Option.Rel TextSession.Represents (t.upsert f32 records)
      (s.step f32 (fun _ => true) records) := by
  rw [TextSession.upsert, Session.step_eq, h.1]
  rcases s.index.update f32 records with ⟨index, _ | e⟩
  · exact .some ⟨rfl, TextFiles.load_persisted hlimit index t.files⟩
  · exact .none

theorem TextSession.Represents.reopen {files : TextFiles β} {decoded : Files β (Metadata limit)}
    (h : files.load limit = some decoded) :
    Option.Rel TextSession.Represents
      ((files.init limit dimension).map fun index => ⟨index, files⟩)
      (some (Session.opened dimension decoded)) := by
  rw [TextFiles.init_of_load h]
  exact .some ⟨rfl, h⟩

theorem TextSession.Represents.step (hlimit : 3 ≤ limit) (h : t.Represents s)
    (event : StoreEvent α (Metadata limit)) :
    Option.Rel TextSession.Represents (t.step f32 dimension event)
      (s.life f32 dimension event) := by
  cases event with
  | upsert records => exact h.upsert f32 hlimit records
  | crash records point =>
    cases point with
    | beforeSave => exact reopen h.2
    | betweenWrites =>
      simp only [TextSession.step, TextSession.crash, Session.life, Session.crash, h.1]
      rcases s.index.update f32 records with ⟨index, _ | e⟩
      · exact reopen (TextFiles.load_saveVectors h.2 index)
      · exact .none
    | afterWrites =>
      simp only [TextSession.step, TextSession.crash, Session.life, Session.crash]
      have hupsert := h.upsert f32 hlimit records
      generalize t.upsert f32 records = u, s.step f32 (fun _ => true) records = v at hupsert
      cases hupsert with
      | none => exact .none
      | some h => exact reopen h.2

end Represents

/-- The next process raises, or the whole text had been written. -/
theorem TextSession.init_of_torn (hlimit : 3 ≤ limit) {t : TextSession β limit}
    {records : List (VectorRecord α (Metadata limit))} {written : ℕ} {files : TextFiles β}
    (h : t.torn f32 records written = some files) :
    files.init limit dimension = none ∨ t.crash f32 records .afterWrites = some files := by
  unfold TextSession.torn at h
  split at h
  next index hupdate =>
    cases h
    let text := (manifestText index.manifest).toList
    have hsplit : text = text.take written ++ text.drop written :=
      (List.take_append_drop written text).symm
    cases hdrop : text.drop written with
    | nil =>
      right
      have htake : text.take written = text := by
        rw [hdrop, List.append_nil] at hsplit
        exact hsplit.symm
      change (t.upsert f32 records).map TextSession.files = _
      rw [htake, String.ofList_toList, TextSession.upsert, hupdate]
      rfl
    | cons c more =>
      left
      have hcut := readManifest_cut hlimit index.manifest hsplit (by simp [hdrop])
      exact congrArg (Option.map (LocalNumpyIndex.mk dimension index.vectors)) hcut
  next => cases h

/-- Whatever happens to the store, the manifest can be read, and the process that has it open has
the index that the values give: writing the manifest as a text loses nothing. A manifest of which
only a part has been written makes the next process raise. -/
theorem manifest_text_refines (hlimit : 3 ≤ limit)
    (events : List (StoreEvent α (Metadata limit))) :
    Option.Rel TextSession.Represents
        (Runs.run (TextSession.step f32 dimension) (TextSession.start dimension) events)
        (Runs.run (Session.life f32 dimension)
          (Session.opened dimension ⟨none, none⟩ : Session β (Metadata limit)) events) ∧
      ∀ (t : TextSession β limit) (records : List (VectorRecord α (Metadata limit))) (written : ℕ)
        (files : TextFiles β), t.torn f32 records written = some files →
          files.init limit dimension = none ∨ t.crash f32 records .afterWrites = some files :=
  ⟨Runs.rel_run (fun _ _ event h => h.step f32 hlimit event) ⟨rfl, rfl⟩ events,
    fun _ _ _ _ h => TextSession.init_of_torn f32 dimension hlimit h⟩

/-- A process writes an entry, and the next one dies between the two files. If it died inside the
write of the manifest, the store could not be opened. -/
theorem manifest_text_refines_crash :
    let record : VectorRecord ℕ (Metadata 100) :=
      ⟨some "c1", some [1], some (Dict.ofList [("category", ⟨.string ['é'], by decide⟩)])⟩
    let events := [.upsert [record], .crash [record] .betweenWrites]
    ∃ t s, Runs.run (TextSession.step id 1) (TextSession.start 1) events = some t ∧
      Runs.run (Session.life id 1) (Session.opened 1 ⟨none, none⟩) events = some s ∧
      t.files.manifest =
        some "[\x7b\"id\": \"c1\", \"metadata\": \x7b\"category\": \"\\u00e9\"\x7d\x7d]" ∧
      t.Represents s ∧ ∃ files : TextFiles ℕ, t.torn id [record] 20 = some files ∧
        (files.init 100 1 = none ∨ t.crash id [record] .afterWrites = some files) := by
  intro record events
  have hrun : ((Runs.run (TextSession.step id 1) (TextSession.start 1) events).map
      fun t => (t.files.manifest, (t.torn id [record] 20).isSome)) =
        some (some "[\x7b\"id\": \"c1\", \"metadata\": \x7b\"category\": \"\\u00e9\"\x7d\x7d]",
          true) := by
    decide +kernel
  obtain ⟨t, ht, hvalues⟩ := Option.map_eq_some_iff.mp hrun
  obtain ⟨hmanifest, htorn⟩ := Prod.mk.inj hvalues
  obtain ⟨files, hfiles⟩ := Option.isSome_iff_exists.mp htorn
  obtain ⟨hrel, hcut⟩ := manifest_text_refines id 1 (by decide : 3 ≤ 100) events
  rw [ht] at hrel
  generalize Runs.run (Session.life id 1) (Session.opened 1 ⟨none, none⟩) events = life at hrel ⊢
  cases hrel with
  | @some _ s h => exact ⟨t, s, ht, rfl, hmanifest, h, files, hfiles, hcut t _ _ files hfiles⟩

end LegalLens.Ingestion
