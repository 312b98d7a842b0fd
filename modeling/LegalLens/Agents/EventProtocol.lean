import LegalLens.Agents.Loop

/-!
# The protocol of agent events

A consumer of the event stream sees rounds, one for each response that asks for tools, and
then one terminal event. A round is a `thinking` event and, for each call in order, a
`tool_call` and a `tool_result` if the tool succeeded. Which events come depends on the
tools, but how many rounds there are and how the run ends depends on the endpoint only.
-/

namespace LegalLens.Agents.ContractReviewAgent

variable {π ρ : Type*} (env : Environment π ρ)

def shape (event : AgentEvent) : EventType × Option String := (event.type, event.toolName)

/-- What comes of a call: the result of its tool, or the exception. -/
def outcome (iteration j : ℕ) (call : ToolCall π) : Except String ρ :=
  dispatchTool call.name (env.tool iteration j)

def callShape (call : ToolCall π) : Except String ρ → List (EventType × Option String)
  | .ok _ => [(.toolCall, some call.name), (.toolResult, some call.name)]
  | .error _ => [(.toolCall, some call.name)]

def callsShape (iteration : ℕ) (calls : List (ToolCall π)) : List (EventType × Option String) :=
  (calls.mapIdx fun j call => callShape call (outcome env iteration j call)).flatten

/-- The events of an iteration whose response asks for tools. -/
def roundShape (iteration : ℕ) : List (EventType × Option String) :=
  match env.llm iteration with
  | .ok response => (.thinking, none) :: callsShape env iteration response.toolCalls
  | .error _ => []

def terminal : Ending → EventType × Option String
  | .returned => (.finalAnswer, none)
  | .raised _ => (.error, none)

/-- A run of at most `n` iterations goes through `r` rounds and then returns on a response
without tool calls, or raises on an exception of the endpoint or for lack of iterations. -/
structure Protocol (n iteration r : ℕ) (run : Run π ρ) : Prop where
  rounds : r ≤ n
  asks : ∀ i < r, AsksForTools env (iteration + i)
  events : run.events.map shape =
    (List.range r).flatMap (fun i => roundShape env (iteration + i)) ++ [terminal run.ending]
  ending :
    (run.ending = .returned ∧ r < n ∧
      ∃ response, env.llm (iteration + r) = .ok response ∧ response.toolCalls = []) ∨
    ∃ text, run.ending = .raised text ∧ (r = n ∨ ∃ e, env.llm (iteration + r) = .error e)

/-- The entry of `tool_results` for a call: its result, or an error entry if it failed. -/
def Answers (call : ToolCall π) (entry : ToolResult π ρ) : Except String ρ → Prop
  | .ok result =>
    entry = ⟨call, if env.isDict result then .list [result] else .bare result⟩
  | .error e => entry = ⟨call, .list [env.errorDict e]⟩

theorem answers_toolResult (iteration j : ℕ) (call : ToolCall π) :
    Answers env call (toolResult env iteration j call) (outcome env iteration j call) := by
  unfold toolResult outcome
  split
  next result hok =>
    rw [hok]
    rfl
  next e herror =>
    rw [herror]
    rfl

theorem shape_toolEvents (iteration j : ℕ) (call : ToolCall π) :
    (toolEvents env iteration j call).map shape =
      callShape call (outcome env iteration j call) := by
  unfold toolEvents outcome
  split
  next result hok =>
    rw [hok]
    rfl
  next e herror =>
    rw [herror]
    rfl

theorem shape_callTools (iteration j : ℕ) (calls : List (ToolCall π)) :
    (callTools env iteration j calls).1.map shape =
      (calls.mapIdx fun i call => callShape call (outcome env iteration (j + i) call)).flatten := by
  induction calls generalizing j with
  | nil => rfl
  | cons call calls ih =>
    simp only [callTools, List.map_append, List.mapIdx_cons, List.flatten_cons, ih,
      shape_toolEvents, Nat.add_zero]
    congr 3
    funext i call
    rw [Nat.add_assoc, Nat.add_comm 1]

theorem Protocol.round {n iteration r : ℕ} {response : Response π} {rest : Run π ρ}
    (hllm : env.llm iteration = .ok response) (hcalls : response.toolCalls ≠ [])
    (h : Protocol env n (iteration + 1) r rest) (request : Request π ρ) :
    Protocol env (n + 1) iteration (r + 1)
      (rest.after request (thinkingEvent response.toolCalls.length ::
        (callTools env iteration 0 response.toolCalls).1)) := by
  have hshift : ∀ i, iteration + 1 + i = iteration + (i + 1) := by
    intro i
    omega
  constructor
  · exact Nat.succ_le_succ h.rounds
  · intro i hi
    cases i with
    | zero => exact ⟨response, hllm, hcalls⟩
    | succ i =>
      rw [← hshift]
      exact h.asks i (Nat.lt_of_succ_lt_succ hi)
  · have hround : roundShape env iteration =
        (.thinking, none) :: callsShape env iteration response.toolCalls := by
      rw [roundShape, hllm]
    have hcallTools := shape_callTools env iteration 0 response.toolCalls
    simp only [Nat.zero_add] at hcallTools
    rw [List.range_succ_eq_map, List.flatMap_cons, List.flatMap_map, Nat.add_zero, hround]
    simp only [Run.after, List.cons_append, List.map_cons, List.map_append, h.events, hcallTools,
      hshift, callsShape, List.append_assoc]
    rfl
  · rcases h.ending with ⟨hreturned, hlt, hresponse⟩ | ⟨text, hraised, hwhy⟩
    · rw [hshift] at hresponse
      exact Or.inl ⟨hreturned, Nat.succ_lt_succ hlt, hresponse⟩
    · rw [hshift] at hwhy
      exact Or.inr ⟨text, hraised, hwhy.imp_left (congrArg Nat.succ)⟩

theorem loop_protocol (n iteration : ℕ) (request : Request π ρ) :
    ∃ r, Protocol env n iteration r (loop env n iteration request) := by
  induction n generalizing iteration request with
  | zero =>
    refine ⟨0, le_rfl, ?_, rfl, Or.inr ⟨_, rfl, Or.inl rfl⟩⟩
    intro i hi
    omega
  | succ n ih =>
    have hnone : ∀ i < 0, AsksForTools env (iteration + i) := by
      intro i hi
      omega
    rw [loop]
    split
    next e herror => exact ⟨0, Nat.zero_le _, hnone, rfl, Or.inr ⟨e, rfl, Or.inr ⟨e, herror⟩⟩⟩
    next response hllm =>
      split_ifs with hcalls
      · exact ⟨0, Nat.zero_le _, hnone, rfl,
          Or.inl ⟨rfl, Nat.succ_pos n, response, hllm, hcalls⟩⟩
      · obtain ⟨r, hrest⟩ := ih (iteration + 1)
          { request with
            message := ""
            toolResults := some (callTools env iteration 0 response.toolCalls).2 }
        exact ⟨r + 1, hrest.round env hllm hcalls request⟩

theorem ending_loop_congr {env' : Environment π ρ} (h : env'.llm = env.llm)
    (n iteration : ℕ) (request request' : Request π ρ) :
    (loop env' n iteration request').ending = (loop env n iteration request).ending := by
  induction n generalizing iteration request request' with
  | zero => rfl
  | succ n ih =>
    rw [loop, loop, h]
    split
    · rfl
    next response hllm =>
      split_ifs with hcalls
      · rfl
      · exact ih (iteration + 1) _ _

/-- The event protocol of the agent, for all outcomes of the endpoint and of the tools. No
failing tool ends a run, and every later request answers each call of the response before. -/
theorem run_event_protocol (userQuery : String) :
    (∃ r, Protocol env maxAgentIterations 0 r (run env userQuery)) ∧
      (∀ env' : Environment π ρ, env'.llm = env.llm →
        (run env' userQuery).ending = (run env userQuery).ending) ∧
      ∀ (j : ℕ) sent, (run env userQuery).requests[j + 1]? = some sent →
        ∃ response entries, env.llm j = .ok response ∧ sent.toolResults = some entries ∧
          entries.length = response.toolCalls.length ∧
          ∀ (k : ℕ) call, response.toolCalls[k]? = some call →
            ∃ entry, entries[k]? = some entry ∧ Answers env call entry (outcome env j k call) := by
  refine ⟨loop_protocol env _ _ _, fun env' h => ending_loop_congr env h _ _ _ _, ?_⟩
  intro j sent hsent
  obtain ⟨-, hasks, rfl⟩ := (getElem?_loop_requests env).mp hsent
  obtain ⟨response, hllm, -⟩ := hasks j (Nat.lt_succ_self j)
  rw [Nat.zero_add] at hllm
  refine ⟨response, obtained env (0 + j), hllm, rfl, ?_, ?_⟩
  · rw [Nat.zero_add, obtained, hllm, List.length_mapIdx]
  · intro k call hcall
    refine ⟨toolResult env j k call, ?_, answers_toolResult env j k call⟩
    simp [obtained, hllm, hcall]

end LegalLens.Agents.ContractReviewAgent
