import LegalLens.Agents.Loop

/-!
# What a request of the agent tells the endpoint

The endpoint keeps no state between requests, so it knows what the message, the chat
history and the tool results of a request contain. The loop clears the message after the
first request, replaces the tool results in every round and never extends the history.
-/

namespace LegalLens.Agents

variable {π ρ : Type*}

def Request.ContainsText (request : Request π ρ) (text : String) : Prop :=
  text.toList <:+: request.message.toList ∨
    ∃ entry ∈ request.chatHistory, text.toList <:+: entry.message.toList

def Request.ContainsResult (request : Request π ρ) (result : ToolResult π ρ) : Prop :=
  result ∈ request.toolResults.getD [] ∨
    ∃ entry ∈ request.chatHistory, result ∈ entry.toolResults

namespace ContractReviewAgent

variable (env : Environment π ρ)

/-- Every request contains the query and all results obtained before it. -/
def NeverForgets (userQuery : String) : Prop :=
  ∀ j request, (run env userQuery).requests[j]? = some request →
    request.ContainsText userQuery ∧
      ∀ i < j, ∀ result ∈ obtained env i, request.ContainsResult result

/-- The run makes a request after that of iteration `j`. -/
def MakesRequestAfter (j : ℕ) : Prop :=
  j + 1 < maxAgentIterations ∧ ∀ i ≤ j, AsksForTools env i

theorem first_request (userQuery : String) :
    (run env userQuery).requests[0]? = some ⟨userQuery, [], none⟩ :=
  (getElem?_loop_requests env).mpr ⟨by decide, by simp, rfl⟩

theorem later_request {userQuery : String} {j : ℕ} {request : Request π ρ} :
    (run env userQuery).requests[j + 1]? = some request ↔
      MakesRequestAfter env j ∧ request = ⟨"", [], some (obtained env j)⟩ := by
  unfold run
  rw [getElem?_loop_requests]
  simp only [MakesRequestAfter, Nat.zero_add, Nat.lt_succ_iff, and_assoc]

theorem containsText_first (userQuery : String) :
    (⟨userQuery, [], none⟩ : Request π ρ).ContainsText userQuery :=
  Or.inl List.infix_rfl

theorem containsText_later {userQuery : String} {results : List (ToolResult π ρ)} :
    (⟨"", [], some results⟩ : Request π ρ).ContainsText userQuery ↔ userQuery = "" := by
  simp [Request.ContainsText]

theorem containsResult_later {results : List (ToolResult π ρ)} {result : ToolResult π ρ} :
    (⟨"", [], some results⟩ : Request π ρ).ContainsResult result ↔ result ∈ results := by
  simp [Request.ContainsResult]

/-- Nothing is forgotten exactly if, at every request after the first, the query is empty
and the results of all rounds recur in the last one. -/
theorem never_forgets_iff (userQuery : String) :
    NeverForgets env userQuery ↔
      ∀ j, MakesRequestAfter env j →
        userQuery = "" ∧ ∀ i < j, obtained env i ⊆ obtained env j := by
  constructor
  · intro h j hj
    obtain ⟨htext, hresults⟩ := h (j + 1) _ ((later_request env).mpr ⟨hj, rfl⟩)
    refine ⟨containsText_later.mp htext, fun i hi result hresult => ?_⟩
    exact containsResult_later.mp (hresults i (by omega) result hresult)
  · intro h j request hrequest
    cases j with
    | zero =>
      rw [first_request] at hrequest
      cases hrequest
      exact ⟨containsText_first userQuery, by simp⟩
    | succ j =>
      obtain ⟨hj, rfl⟩ := (later_request env).mp hrequest
      obtain ⟨hquery, hrecur⟩ := h j hj
      refine ⟨containsText_later.mpr hquery, fun i hi result hresult => ?_⟩
      apply containsResult_later.mpr
      rcases Nat.lt_succ_iff_lt_or_eq.mp hi with hlt | rfl
      · exact hrecur i hlt hresult
      · exact hresult

/-- With two rounds of tool calls before the answer, the second request does not contain the
query; even if the query is empty, the third request has lost the result of the first round. -/
theorem forgets_query_and_first_result :
    ∃ env : Environment String String,
      ¬NeverForgets env "Which clauses are risky?" ∧ ¬NeverForgets env "" := by
  refine ⟨{
    llm := fun iteration =>
      if iteration < 2 then .ok ⟨[⟨"extract_clauses", toString iteration⟩], ""⟩
      else .ok ⟨[], "Clause 3."⟩
    tool := fun iteration _ => .ok ("clauses of round " ++ toString iteration)
    reprParameters := id
    strResult := id
    isDict := fun _ => true
    errorDict := id }, fun h => ?_, fun h => ?_⟩
  · have hsecond := h 1 ⟨"", [], some [⟨⟨"extract_clauses", "0"⟩, .list ["clauses of round 0"]⟩]⟩
      rfl
    exact absurd (containsText_later.mp hsecond.1) (by decide)
  · have hthird := h 2 ⟨"", [], some [⟨⟨"extract_clauses", "1"⟩, .list ["clauses of round 1"]⟩]⟩
      rfl
    have hfirst := hthird.2 0 (by omega) ⟨⟨"extract_clauses", "0"⟩, .list ["clauses of round 0"]⟩
      (by decide)
    exact absurd (containsResult_later.mp hfirst) (by decide)

end ContractReviewAgent

end LegalLens.Agents
