import LegalLens.Agents.Retries
import LegalLens.Api.EventStream
import LegalLens.Library.JsonText

/-!
# The data of the frames

The frame of an event carries what `model_dump_json` makes of it. The frame for an
`AgentLoopError` is written by hand: the text of the exception is pasted between the quotes
of `{"error": "..."}`. That is JSON with the text as its member only if no character
of the text needs an escape. The texts that are left after the retries need none.
-/

namespace LegalLens.Api

open Agents ContractReviewAgent JsonText

variable {π ρ : Type*}

/-- Every frame carries a JSON object, and the one for an exception carries its text. -/
structure CarriesJson (run : Run π ρ) (frames : List Frame) : Prop where
  objects : ∀ frame ∈ frames, IsObject frame.data.toList
  message : ∀ text, run.ending = .raised text → ∃ frame ms, frames.getLast? = some frame ∧
    Decodes frame.data.toList (.object ms) ∧
      lookup (codePoints "error".toList) ms = some (.string (codePoints text.toList))

theorem toList_errorData (text : String) :
    (errorData text).toList = pasted "error".toList text.toList := by
  simp [errorData, pasted]

theorem lookup_errorData_iff (text : String) :
    (∃ ms, Decodes (errorData text).toList (.object ms) ∧
      lookup (codePoints "error".toList) ms = some (.string (codePoints text.toList))) ↔
        ∀ c ∈ text.toList, Plain c := by
  rw [toList_errorData]
  exact lookup_pasted_iff (plain_of_all rfl)

theorem plain_of_identifierChar {c : Char} (h : IdentifierChar c) : Plain c := by
  have hcontrol : 0x20 ≤ c.toNat := by
    by_contra hlt
    have hsmall : ∀ n < 0x20, ¬IdentifierChar (Char.ofNat n) := by decide
    apply hsmall c.toNat (by omega)
    rwa [Char.ofNat_toNat]
  refine ⟨?_, ?_, hcontrol⟩
  · rintro rfl
    exact absurd h (by decide)
  · rintro rfl
    exact absurd h (by decide)

theorem plain_of_mem_toDigits {n : ℕ} {c : Char} (h : c ∈ Nat.toDigits 16 n) : Plain c := by
  have hdigit : ∀ d < 16, Plain (Nat.digitChar d) := by decide
  induction n using Nat.strong_induction_on with
  | _ n ih =>
    rw [Nat.toDigits_eq_if (by decide)] at h
    split_ifs at h with hlt
    · rw [List.mem_singleton.mp h]
      exact hdigit n hlt
    · rcases List.mem_append.mp h with h | h
      · exact ih (n / 16) (by omega) h
      · rw [List.mem_singleton.mp h]
        exact hdigit (n % 16) (Nat.mod_lt n (by decide))

theorem plain_retryErrorText (id : ℕ) (e : ClientException) :
    ∀ c ∈ (retryErrorText id e).toList, Plain c := by
  have hfront : ∀ c ∈ "RetryError[<Future at 0x".toList, Plain c := plain_of_all rfl
  have hstate : ∀ c ∈ " state=finished raised ".toList, Plain c := plain_of_all rfl
  have hback : ∀ c ∈ ">]".toList, Plain c := plain_of_all rfl
  have htext : (retryErrorText id e).toList = "RetryError[<Future at 0x".toList ++
      (Nat.toDigits 16 id ++ (" state=finished raised ".toList ++
        (e.className.toList ++ ">]".toList))) := by
    simp [retryErrorText, futureRepr]
  intro c hc
  simp only [htext, List.mem_append] at hc
  rcases hc with hc | hc | hc | hc | hc
  · exact hfront c hc
  · exact plain_of_mem_toDigits hc
  · exact hstate c hc
  · exact plain_of_identifierChar (e.identifier c hc)
  · exact hback c hc

section Stream

variable {dump : ℕ → AgentEvent → String}

theorem getLast?_eventStream {run : Run π ρ} {text : String} (h : run.ending = .raised text) :
    (eventStream dump run).getLast? = some ⟨"error", errorData text⟩ := by
  unfold eventStream
  rw [h, List.getLast?_append]
  rfl

variable (hdump : ∀ i event, IsObject (dump i event).toList)

include hdump

theorem carriesJson_eventStream_iff (run : Run π ρ) :
    CarriesJson run (eventStream dump run) ↔
      ∀ text, run.ending = .raised text → ∀ c ∈ text.toList, Plain c := by
  constructor
  · intro h text hending
    obtain ⟨frame, ms, hlast, hdecodes, hlookup⟩ := h.message text hending
    rw [getLast?_eventStream hending] at hlast
    cases hlast
    exact (lookup_errorData_iff text).mp ⟨ms, hdecodes, hlookup⟩
  · intro h
    refine ⟨?_, ?_⟩
    · intro frame hframe
      rcases List.mem_append.mp hframe with hevent | herror
      · obtain ⟨i, hi, rfl⟩ := List.mem_mapIdx.mp hevent
        exact hdump i _
      · cases hending : run.ending with
        | returned =>
          rw [hending] at herror
          cases herror
        | raised text =>
          rw [hending] at herror
          cases List.mem_singleton.mp herror
          obtain ⟨ms, hdecodes, -⟩ := (lookup_errorData_iff text).mpr (h text hending)
          exact ⟨ms, hdecodes⟩
    · intro text hending
      obtain ⟨ms, hdecodes, hlookup⟩ := (lookup_errorData_iff text).mpr (h text hending)
      exact ⟨_, ms, getLast?_eventStream hending, hdecodes, hlookup⟩

theorem carriesJson_retrying
    {retried : (ℕ → Except ClientException (Response π)) → Except String (Response π)}
    (hretried : Retries retried) (env : Environment π ρ)
    (attempts : ℕ → ℕ → Except ClientException (Response π)) (userQuery : String) :
    CarriesJson (run (env.retrying retried attempts) userQuery)
      (eventStream dump (run (env.retrying retried attempts) userQuery)) := by
  rw [carriesJson_eventStream_iff hdump]
  intro text hraised
  rcases hretried.of_raised env attempts hraised with rfl | ⟨-, -, id, e, -, rfl⟩
  · exact plain_of_all rfl
  · exact plain_retryErrorText id e

end Stream

/-- `model_dump_json` of an event, for a given text of its timestamp. -/
def modelDumpJson (timestamp : String) (event : AgentEvent) : String :=
  String.ofList (encodeObject [("type".toList, some event.type.value.toList),
    ("content".toList, some event.content.toList),
    ("tool_name".toList, event.toolName.map String.toList),
    ("timestamp".toList, some timestamp.toList)])

theorem isObject_modelDumpJson (timestamp : String) (event : AgentEvent) :
    IsObject (modelDumpJson timestamp event).toList := by
  rw [modelDumpJson, String.toList_ofList]
  exact isObject_encodeObject _

end LegalLens.Api
