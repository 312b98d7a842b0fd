import LegalLens.Agents.Endings

/-!
# The event streams of the API

`/review` and `/followup` run the agent on a prompt and send each of its events as a frame.
If the run raises `AgentLoopError`, the endpoint adds a frame of its own, after the error
event that the agent has yielded before raising. So a run that fails ends its stream with two
error frames.
-/

namespace LegalLens.Agents

def EventType.value : EventType → String
  | .thinking => "thinking"
  | .toolCall => "tool_call"
  | .toolResult => "tool_result"
  | .finalAnswer => "final_answer"
  | .error => "error"

end LegalLens.Agents

namespace LegalLens.Api

open Agents ContractReviewAgent

inductive ClauseCategory where
  | governingLaw
  | limitationOfLiability
  | indemnification
  | termination
  | nonCompete
  | exclusivity
  | ipOwnership
  | other
  deriving DecidableEq, Repr

def ClauseCategory.value : ClauseCategory → String
  | .governingLaw => "governing_law"
  | .limitationOfLiability => "limitation_of_liability"
  | .indemnification => "indemnification"
  | .termination => "termination"
  | .nonCompete => "non_compete"
  | .exclusivity => "exclusivity"
  | .ipOwnership => "ip_ownership"
  | .other => "other"

structure ReviewRequest where
  contractId : String
  focusCategories : Option (List ClauseCategory)

structure FollowUpQuestion where
  contractId : String
  question : String
  clauseId : Option String

/-- An empty list of categories is like a missing one. -/
def buildReviewPrompt (request : ReviewRequest) : String :=
  let base := "Please review contract " ++ request.contractId ++ ". " ++
    "Identify the 5-10 clauses most worth a senior lawyer's attention, " ++
    "and for each, provide a 1-2 sentence rationale."
  match request.focusCategories with
  | none | some [] => base
  | some (c :: cs) =>
    base ++ " Focus on these categories: " ++
      ", ".intercalate ((c :: cs).map ClauseCategory.value) ++ "."

/-- An empty clause id is like a missing one. -/
def buildFollowupPrompt (question : FollowUpQuestion) : String :=
  let base := "User question about contract " ++ question.contractId ++ ": " ++ question.question
  match question.clauseId with
  | none => base
  | some clauseId =>
    if clauseId = "" then base else base ++ " (scoped to clause " ++ clauseId ++ ")"

structure Frame where
  event : String
  data : String
  deriving DecidableEq, Repr

def Frame.Terminal (frame : Frame) : Prop := frame.event = "final_answer" ∨ frame.event = "error"

instance : DecidablePred Frame.Terminal := fun frame =>
  inferInstanceAs (Decidable (frame.event = "final_answer" ∨ frame.event = "error"))

/-- The data of the frame for an `AgentLoopError` with the given text. -/
def errorData (text : String) : String := "\x7b\"error\": \"" ++ text ++ "\"\x7d"

variable {π ρ : Type*} (env : Environment π ρ) (dump : ℕ → AgentEvent → String)

/-- The frames of a run: `dump i` is `model_dump_json` for its `i`-th event, whose timestamp
depends on when it is yielded. -/
def eventStream (run : Run π ρ) : List Frame :=
  run.events.mapIdx (fun i event => ⟨event.type.value, dump i event⟩) ++
    match run.ending with
    | .returned => []
    | .raised text => [⟨"error", errorData text⟩]

def reviewContract (request : ReviewRequest) : List Frame :=
  eventStream dump (run env (buildReviewPrompt request))

def followUp (question : FollowUpQuestion) : List Frame :=
  eventStream dump (run env (buildFollowupPrompt question))

theorem terminal_value_iff {type : EventType} {data : String} :
    (Frame.mk type.value data).Terminal ↔ type.Terminal := by
  cases type <;> simp [Frame.Terminal, EventType.Terminal, EventType.value]

/-- The end of a stream. If the agent returns, the last frame is its answer and the only
terminal frame. If it raises, the terminal frames are the last two: the agent's error event,
and the frame of the endpoint. -/
def Concludes (frames : List Frame) : Prop :=
  ∃ before data, (∀ frame ∈ before, ¬frame.Terminal) ∧
    ((EndsWith env maxAgentIterations 0 .returned ∧
        frames = before ++ [⟨"final_answer", data⟩]) ∨
      ∃ text, EndsWith env maxAgentIterations 0 (.raised text) ∧
        frames = before ++ [⟨"error", data⟩, ⟨"error", errorData text⟩])

theorem concludes_eventStream (userQuery : String) :
    Concludes env (eventStream dump (run env userQuery)) := by
  obtain ⟨before, event, hevents, hbefore, hevent⟩ := run_events env userQuery
  have hends : EndsWith env maxAgentIterations 0 (run env userQuery).ending :=
    (ending_loop_iff env).mp rfl
  refine ⟨before.mapIdx fun i e => ⟨e.type.value, dump i e⟩, dump before.length event, ?_, ?_⟩
  · intro frame hframe
    obtain ⟨i, hi, rfl⟩ := List.mem_mapIdx.mp hframe
    rw [terminal_value_iff]
    exact hbefore _ (List.getElem_mem hi)
  · unfold eventStream
    rw [hevents, List.mapIdx_append, List.mapIdx_singleton, Nat.zero_add]
    cases hending : (run env userQuery).ending with
    | returned =>
      rw [hending] at hends hevent
      have htype : event.type = .finalAnswer := congrArg Prod.fst hevent
      left
      refine ⟨hends, ?_⟩
      rw [htype, List.append_nil]
      rfl
    | raised text =>
      rw [hending] at hends hevent
      have htype : event.type = .error := congrArg Prod.fst hevent
      right
      refine ⟨text, hends, ?_⟩
      rw [htype, List.append_assoc]
      rfl

/-- Both endpoints, for all outcomes of the chat endpoint and of the tools. -/
theorem terminal_frames (request : ReviewRequest) (question : FollowUpQuestion) :
    Concludes env (reviewContract env dump request) ∧
      Concludes env (followUp env dump question) :=
  ⟨concludes_eventStream env dump _, concludes_eventStream env dump _⟩

/-- A failing chat endpoint leads to two terminal frames. -/
theorem failing_call_two_terminal_frames :
    let env : Environment Unit Unit :=
      ⟨fun _ => .error "timed out", fun _ _ => .ok (), fun _ => "", fun _ => "", fun _ => true,
        fun _ => ()⟩
    let frames := reviewContract env (fun _ event => event.content) ⟨"c1", none⟩
    frames.map Frame.event = ["error", "error"] ∧ frames.countP Frame.Terminal = 2 := by
  decide

end LegalLens.Api
