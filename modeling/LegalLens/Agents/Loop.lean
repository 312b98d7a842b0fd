import Mathlib.Tactic

/-!
# The agent loop

`ContractReviewAgent.run` alternates requests to the chat endpoint with tool calls. The
endpoint and the bodies of the tools are the environment: one outcome for every iteration
and for every call of an iteration, an exception being represented by its text. A run is
recorded as the requests it sends, the events it yields and the way it ends.
-/

namespace LegalLens.Agents

structure ToolCall (π : Type*) where
  name : String
  parameters : π
  deriving DecidableEq

/-- A response of the chat endpoint. A missing list of tool calls is an empty one. -/
structure Response (π : Type*) where
  toolCalls : List (ToolCall π)
  text : String

/-- The value of the key `"outputs"`: a dictionary is wrapped in a list. -/
inductive Outputs (ρ : Type*) where
  | list (values : List ρ)
  | bare (value : ρ)
  deriving DecidableEq

structure ToolResult (π ρ : Type*) where
  call : ToolCall π
  outputs : Outputs ρ
  deriving DecidableEq

/-- An entry of a chat history: a message, possibly with results of tools. -/
structure ChatEntry (π ρ : Type*) where
  message : String
  toolResults : List (ToolResult π ρ)

structure Request (π ρ : Type*) where
  message : String
  chatHistory : List (ChatEntry π ρ)
  toolResults : Option (List (ToolResult π ρ))

inductive EventType where
  | thinking
  | toolCall
  | toolResult
  | finalAnswer
  | error
  deriving DecidableEq, Repr

structure AgentEvent where
  type : EventType
  content : String
  toolName : Option String
  deriving DecidableEq, Repr

/-- How a run ends: it returns or raises `AgentLoopError` with a text. -/
inductive Ending where
  | returned
  | raised (text : String)
  deriving DecidableEq, Repr

structure Environment (π ρ : Type*) where
  /-- The endpoint in an iteration, after its retries. -/
  llm : ℕ → Except String (Response π)
  /-- The body of the tool called by a call of an iteration. -/
  tool : ℕ → ℕ → Except String ρ
  reprParameters : π → String
  strResult : ρ → String
  isDict : ρ → Bool
  errorDict : String → ρ

def maxAgentIterations : ℕ := 8

def toolRegistry : List String :=
  ["extract_clauses", "search_similar_clauses", "score_clause_risk"]

def unknownToolMessage (name : String) : String :=
  "unknown tool: " ++ name ++ ". available: [" ++
    ", ".intercalate (toolRegistry.map fun tool => "'" ++ tool ++ "'") ++ "]"

variable {π ρ : Type*}

/-- Route a call to the body of its tool. -/
def dispatchTool (name : String) (body : Except String ρ) : Except String ρ :=
  if name ∈ toolRegistry then body else .error (unknownToolMessage name)

namespace ContractReviewAgent

variable (env : Environment π ρ)

def toolResult (iteration j : ℕ) (call : ToolCall π) : ToolResult π ρ :=
  match dispatchTool call.name (env.tool iteration j) with
  | .ok result => ⟨call, if env.isDict result then .list [result] else .bare result⟩
  | .error e => ⟨call, .list [env.errorDict e]⟩

/-- The events of a call: the second one only if the tool succeeds. -/
def toolEvents (iteration j : ℕ) (call : ToolCall π) : List AgentEvent :=
  ⟨.toolCall, "Args: " ++ env.reprParameters call.parameters, some call.name⟩ ::
    match dispatchTool call.name (env.tool iteration j) with
    | .ok result =>
      [⟨.toolResult, String.ofList ((env.strResult result).toList.take 200), some call.name⟩]
    | .error _ => []

/-- The loop over the calls of a response, from call `j` on. -/
def callTools (iteration : ℕ) : ℕ → List (ToolCall π) → List AgentEvent × List (ToolResult π ρ)
  | _, [] => ([], [])
  | j, call :: calls =>
    let (events, results) := callTools iteration (j + 1) calls
    (toolEvents env iteration j call ++ events, toolResult env iteration j call :: results)

structure Run (π ρ : Type*) where
  requests : List (Request π ρ)
  events : List AgentEvent
  ending : Ending

/-- A request and events in front of a run. -/
def Run.after (request : Request π ρ) (events : List AgentEvent) (r : Run π ρ) : Run π ρ :=
  ⟨request :: r.requests, events ++ r.events, r.ending⟩

def thinkingEvent (calls : ℕ) : AgentEvent :=
  ⟨.thinking, "Calling " ++ toString calls ++ " tool(s)...", none⟩

/-- The loop with `n` iterations left; the request holds the loop variables. -/
def loop : (n iteration : ℕ) → Request π ρ → Run π ρ
  | 0, _, _ =>
    ⟨[], [⟨.error, "Agent exceeded " ++ toString maxAgentIterations ++
      " iterations without finishing.", none⟩], .raised "max iterations exceeded"⟩
  | n + 1, iteration, request =>
    match env.llm iteration with
    | .error e => ⟨[request], [⟨.error, "LLM call failed: " ++ e, none⟩], .raised e⟩
    | .ok response =>
      if response.toolCalls = [] then
        ⟨[request], [⟨.finalAnswer, response.text, none⟩], .returned⟩
      else
        let (events, results) := callTools env iteration 0 response.toolCalls
        Run.after request (thinkingEvent response.toolCalls.length :: events)
          (loop n (iteration + 1)
            { request with message := "", toolResults := some results })

def run (userQuery : String) : Run π ρ :=
  loop env maxAgentIterations 0 ⟨userQuery, [], none⟩

def obtained (iteration : ℕ) : List (ToolResult π ρ) :=
  match env.llm iteration with
  | .ok response => response.toolCalls.mapIdx (toolResult env iteration)
  | .error _ => []

def AsksForTools (iteration : ℕ) : Prop :=
  ∃ response, env.llm iteration = .ok response ∧ response.toolCalls ≠ []

theorem callTools_snd (iteration j : ℕ) (calls : List (ToolCall π)) :
    (callTools env iteration j calls).2 =
      calls.mapIdx fun i call => toolResult env iteration (j + i) call := by
  induction calls generalizing j with
  | nil => rfl
  | cons call calls ih =>
    simp only [callTools, List.mapIdx_cons, ih, Nat.add_zero]
    congr 2
    funext i call
    rw [Nat.add_assoc, Nat.add_comm 1]

theorem callTools_eq_obtained {iteration : ℕ} {response : Response π}
    (h : env.llm iteration = .ok response) :
    (callTools env iteration 0 response.toolCalls).2 = obtained env iteration := by
  simp [callTools_snd, obtained, h]

theorem loop_of_asksForTools {n iteration : ℕ} (h : AsksForTools env iteration)
    (request : Request π ρ) :
    (loop env (n + 1) iteration request).requests =
      request :: (loop env n (iteration + 1)
        { request with message := "", toolResults := some (obtained env iteration) }).requests := by
  obtain ⟨response, hllm, hcalls⟩ := h
  rw [loop, hllm]
  simp only [if_neg hcalls, ← callTools_eq_obtained env hllm]
  rfl

theorem loop_of_not_asksForTools {n iteration : ℕ} (h : ¬AsksForTools env iteration)
    (request : Request π ρ) : (loop env (n + 1) iteration request).requests = [request] := by
  rw [loop]
  split
  · rfl
  next response hllm =>
    have hcalls : response.toolCalls = [] := by
      by_contra hne
      exact h ⟨response, hllm, hne⟩
    rw [if_pos hcalls]

/-- The requests of the loop: the first one is given, a later one is sent if all responses
before it ask for tools, and carries the results of the iteration before it. -/
theorem getElem?_loop_requests {n iteration j : ℕ} {request sent : Request π ρ} :
    (loop env n iteration request).requests[j]? = some sent ↔
      j < n ∧ (∀ i < j, AsksForTools env (iteration + i)) ∧
        sent = match j with
          | 0 => request
          | i + 1 =>
            { request with message := "", toolResults := some (obtained env (iteration + i)) } := by
  induction n generalizing iteration j request with
  | zero => simp [loop]
  | succ n ih =>
    by_cases hasks : AsksForTools env iteration
    · rw [loop_of_asksForTools env hasks]
      cases j with
      | zero => simp [eq_comm]
      | succ j =>
        rw [List.getElem?_cons_succ, ih]
        refine and_congr (by omega) (and_congr ?_ ?_)
        · constructor
          · intro h i hi
            cases i with
            | zero => exact hasks
            | succ i =>
              have := h i (by omega)
              rwa [Nat.add_assoc, Nat.add_comm 1] at this
          · intro h i hi
            have := h (i + 1) (by omega)
            rwa [Nat.add_assoc, Nat.add_comm 1]
        · cases j with
          | zero => rfl
          | succ j =>
            have heq : iteration + 1 + j = iteration + (j + 1) := by omega
            simp only [heq]
    · rw [loop_of_not_asksForTools env hasks]
      cases j with
      | zero => simp [eq_comm]
      | succ j =>
        constructor
        · intro h
          simp at h
        · rintro ⟨-, h, -⟩
          exact absurd (h 0 (by omega)) hasks

end ContractReviewAgent

end LegalLens.Agents
