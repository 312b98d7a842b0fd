import LegalLens.Ingestion.IngestHandler
import LegalLens.Library.Slices

/-!
# The chunked embedder

`CohereEmbedder.embed` sends the texts in slices of at most 96 and collects the embeddings.
The client is a parameter: what a call returns or raises may depend on the calls before it.
The calls sent are kept, so that what they send can be compared with the texts.
-/

namespace LegalLens.Ingestion

structure EmbedRequest where
  texts : List String
  model : String
  inputType : String

namespace CohereEmbedder

variable {β ε τ : Type*} (client : List EmbedRequest → EmbedRequest → Except ε (List (List β)))

def request (texts : List String) (i : ℕ) : EmbedRequest :=
  ⟨Slices.slice texts i 96, "embed-english-v3.0", "search_document"⟩

def embedLoop (texts : List String) :
    List ℕ → List (List β) → List EmbedRequest → Except ε (List (List β)) × List EmbedRequest
  | [], out, sent => (.ok out, sent)
  | i :: starts, out, sent =>
    match client sent (request texts i) with
    | .error e => (.error e, sent ++ [request texts i])
    | .ok embeddings => embedLoop texts starts (out ++ embeddings) (sent ++ [request texts i])

def embed (texts : List String) : Except ε (List (List β)) × List EmbedRequest :=
  embedLoop client texts (Slices.starts 0 texts.length 96) [] []

/-- The part of `handle_ingest_contract` that embeds the texts, zips clauses and vectors, and
upserts the records. -/
def upsertEmbedded (payload : ParsedContract) (s : Stores β τ) : Except ε (Stores β τ) :=
  match (embed client (payload.clauses.map fun c => c.text)).1 with
  | .error e => .error e
  | .ok vectors =>
    .ok (s.upsertVectors (Stores.vectorRecords payload.contractId payload.clauses vectors))

/-- A call of the API returns one embedding for every text, in order, as long as it is sent at
least one text and at most 96. -/
def Embeds (embedding : String → List β) : Prop :=
  ∀ sent r, r.texts ≠ [] → r.texts.length ≤ 96 → client sent r = .ok (r.texts.map embedding)

variable {client} {embedding : String → List β} {texts : List String}

theorem request_texts_ne_nil {i : ℕ} (hi : i < texts.length) : (request texts i).texts ≠ [] :=
  Slices.slice_ne_nil hi (by omega)

theorem length_request_texts_le (i : ℕ) : (request texts i).texts.length ≤ 96 :=
  Slices.length_slice_le _ _ _

/-- From any point of the loop on, the embeddings of the chunks to come are appended, and their
calls are sent. -/
theorem embedLoop_eq (hclient : Embeds client embedding) (starts : List ℕ)
    (hstarts : ∀ i ∈ starts, i < texts.length) (out : List (List β)) (sent : List EmbedRequest) :
    embedLoop client texts starts out sent =
      (.ok (out ++ (starts.map fun i => (request texts i).texts).flatten.map embedding),
        sent ++ starts.map (request texts)) := by
  induction starts generalizing out sent with
  | nil => simp [embedLoop]
  | cons i starts ih =>
    obtain ⟨hi, hrest⟩ := List.forall_mem_cons.mp hstarts
    have hcall := hclient sent (request texts i) (request_texts_ne_nil hi)
      (length_request_texts_le i)
    simp only [embedLoop, hcall]
    rw [ih hrest]
    simp

theorem flatten_requests (texts : List String) :
    ((Slices.starts 0 texts.length 96).map fun i => (request texts i).texts).flatten = texts :=
  Slices.flatten_slices (by omega) texts

theorem embed_eq (hclient : Embeds client embedding) (texts : List String) :
    embed client texts =
      (.ok (texts.map embedding), (Slices.starts 0 texts.length 96).map (request texts)) := by
  have hstarts : ∀ i ∈ Slices.starts 0 texts.length 96, i < texts.length :=
    fun _ => Slices.lt_of_mem_starts (by omega)
  rw [embed, embedLoop_eq hclient _ hstarts, flatten_requests]
  rfl

theorem upsertEmbedded_eq (hclient : Embeds client embedding) (payload : ParsedContract)
    (s : Stores β τ) :
    upsertEmbedded client payload s =
      .ok (s.upsertVectors (payload.clauses.map fun c =>
        (c.clauseId, embedding c.text, ⟨payload.contractId, c.category⟩))) := by
  simp only [upsertEmbedded, embed_eq hclient, List.map_map]
  exact congrArg (fun records => Except.ok (s.upsertVectors records))
    (Stores.vectorRecords_embed embedding payload.contractId payload.clauses)

theorem of_mem_requests {r : EmbedRequest}
    (hr : r ∈ (Slices.starts 0 texts.length 96).map (request texts)) :
    r.texts ≠ [] ∧ r.texts.length ≤ 96 := by
  obtain ⟨i, hi, rfl⟩ := List.mem_map.mp hr
  have hlt := Slices.lt_of_mem_starts (by omega) hi
  exact ⟨request_texts_ne_nil hlt, length_request_texts_le i⟩

/-- The texts are sent in order, each once and in calls of one to 96 texts, and one embedding
is returned for each. So the handler takes its steps as if it embedded text by text, and
upserts one record for every clause, with the embedding of its own text. -/
theorem embed_aligned (hclient : Embeds client embedding) :
    (∀ texts : List String, ∃ sent,
      embed client texts = (.ok (texts.map embedding), sent) ∧
        (sent.map fun r => r.texts).flatten = texts ∧
        ∀ r ∈ sent, r.texts ≠ [] ∧ r.texts.length ≤ 96) ∧
    ∀ (task : IngestTask) (now : τ) (s : Stores β τ),
      let records := task.payload.clauses.map fun c =>
        (c.clauseId, embedding c.text, (⟨task.payload.contractId, c.category⟩ : VectorMetadata))
      upsertEmbedded client task.payload s = .ok (s.upsertVectors records) ∧
        ∃ ex, Execution.step embedding now ⟨task, .embed⟩ s = some (ex, s) ∧
          Execution.step embedding now ex s = some (⟨task, .rows⟩, s.upsertVectors records) := by
  constructor
  · intro texts
    have hsent : (((Slices.starts 0 texts.length 96).map (request texts)).map
        fun r => r.texts).flatten = texts := by
      rw [List.map_map]
      exact flatten_requests texts
    exact ⟨_, embed_eq hclient texts, hsent, fun _ => of_mem_requests⟩
  · intro task now s
    have hrecords := Stores.vectorRecords_embed embedding task.payload.contractId
      task.payload.clauses
    refine ⟨upsertEmbedded_eq hclient task.payload s, _, rfl, ?_⟩
    simp only [Execution.step, hrecords]

def lengthClient (_sent : List EmbedRequest) (r : EmbedRequest) :
    Except String (List (List ℕ)) :=
  if r.texts = [] ∨ 96 < r.texts.length then .error "invalid request"
  else .ok (r.texts.map fun t => [t.length])

theorem embed_aligned_lengthClient :
    ∃ sent, embed lengthClient (List.replicate 97 "clause") =
      (.ok ((List.replicate 97 "clause").map fun t => [t.length]), sent) := by
  have hclient : Embeds lengthClient fun t => [t.length] := by
    intro sent r hne hlen
    exact if_neg (by simp [hne, hlen])
  obtain ⟨sent, hembed, -⟩ :=
    (@embed_aligned ℕ String Unit _ _ hclient).1 (List.replicate 97 "clause")
  exact ⟨sent, hembed⟩

end CohereEmbedder

end LegalLens.Ingestion
