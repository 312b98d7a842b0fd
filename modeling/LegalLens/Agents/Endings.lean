import LegalLens.Agents.EventProtocol

/-!
# How a run ends

The outcomes of the chat endpoint decide how a run ends: it returns on the first response
without tool calls, and raises on the first exception or when the iterations run out. The
last event of the run tells which, and no event before it does.
-/

namespace LegalLens.Agents

def EventType.Terminal (type : EventType) : Prop := type = .finalAnswer ∨ type = .error

namespace ContractReviewAgent

variable {π ρ : Type*} (env : Environment π ρ)

/-- What the outcomes of the endpoint say about the end of a run of at most `n` iterations. -/
def EndsWith (n iteration : ℕ) : Ending → Prop
  | .returned => ∃ r < n, (∀ i < r, AsksForTools env (iteration + i)) ∧
      ∃ response, env.llm (iteration + r) = .ok response ∧ response.toolCalls = []
  | .raised text =>
      (∃ r < n, (∀ i < r, AsksForTools env (iteration + i)) ∧
        env.llm (iteration + r) = .error text) ∨
      (∀ i < n, AsksForTools env (iteration + i)) ∧ text = "max iterations exceeded"

theorem forall_lt_succ_iff {p : ℕ → Prop} {iteration r : ℕ} :
    (∀ i < r + 1, p (iteration + i)) ↔ p iteration ∧ ∀ i < r, p (iteration + 1 + i) := by
  rw [Nat.forall_lt_succ_left, Nat.add_zero]
  simp only [Nat.add_assoc, Nat.add_comm 1]

theorem exists_lt_succ_iff (p : ℕ → Prop) (n iteration : ℕ) :
    (∃ r < n + 1, (∀ i < r, AsksForTools env (iteration + i)) ∧ p (iteration + r)) ↔
      p iteration ∨ AsksForTools env iteration ∧
        ∃ r < n, (∀ i < r, AsksForTools env (iteration + 1 + i)) ∧ p (iteration + 1 + r) := by
  rw [Nat.exists_lt_succ_left]
  refine or_congr (by simp) ?_
  simp only [forall_lt_succ_iff, Nat.add_assoc, Nat.add_comm 1]
  constructor
  · rintro ⟨r, hr, ⟨hasks, hrest⟩, hp⟩
    exact ⟨hasks, r, hr, hrest, hp⟩
  · rintro ⟨hasks, r, hr, hrest, hp⟩
    exact ⟨r, hr, ⟨hasks, hrest⟩, hp⟩

theorem endsWith_zero_iff {iteration : ℕ} {ending : Ending} :
    EndsWith env 0 iteration ending ↔ ending = .raised "max iterations exceeded" := by
  cases ending <;> simp [EndsWith]

theorem asksForTools_iff {iteration : ℕ} {response : Response π}
    (h : env.llm iteration = .ok response) :
    AsksForTools env iteration ↔ response.toolCalls ≠ [] := by
  constructor
  · rintro ⟨response', hllm, hcalls⟩
    rw [h] at hllm
    cases hllm
    exact hcalls
  · intro hcalls
    exact ⟨response, h, hcalls⟩

theorem endsWith_succ_iff {n iteration : ℕ} {ending : Ending} :
    EndsWith env (n + 1) iteration ending ↔
      match env.llm iteration with
      | .error text => ending = .raised text
      | .ok response =>
        if response.toolCalls = [] then ending = .returned
        else EndsWith env n (iteration + 1) ending := by
  have hanswer := exists_lt_succ_iff env
    (fun i => ∃ response, env.llm i = .ok response ∧ response.toolCalls = []) n iteration
  have herror := fun text => exists_lt_succ_iff env (fun i => env.llm i = .error text) n iteration
  split
  next text hllm =>
    have hasks : ¬AsksForTools env iteration := by
      rintro ⟨response, hok, -⟩
      rw [hllm] at hok
      cases hok
    cases ending with
    | returned =>
      simp only [EndsWith, hanswer]
      simp [hllm, hasks]
    | raised text' =>
      simp only [EndsWith, herror, forall_lt_succ_iff]
      simp [hllm, hasks, eq_comm]
  next response hllm =>
    have hasks := asksForTools_iff env hllm
    cases ending with
    | returned =>
      simp only [EndsWith, hanswer]
      by_cases hcalls : response.toolCalls = [] <;> simp [hllm, hasks, hcalls]
    | raised text =>
      simp only [EndsWith, herror, forall_lt_succ_iff]
      by_cases hcalls : response.toolCalls = [] <;> simp [hllm, hasks, hcalls]

/-- The outcomes of the endpoint determine how the loop ends. -/
theorem ending_loop_iff {n iteration : ℕ} {request : Request π ρ} {ending : Ending} :
    (loop env n iteration request).ending = ending ↔ EndsWith env n iteration ending := by
  induction n generalizing iteration request with
  | zero => rw [endsWith_zero_iff, eq_comm, loop]
  | succ n ih =>
    rw [endsWith_succ_iff, loop]
    cases env.llm iteration with
    | error e => exact eq_comm
    | ok response =>
      dsimp only
      split_ifs with hcalls
      · exact eq_comm
      · exact ih

theorem not_terminal_of_mem_roundShape {iteration : ℕ} {s : EventType × Option String}
    (h : s ∈ roundShape env iteration) : ¬s.1.Terminal := by
  unfold roundShape at h
  split at h
  next response hllm =>
    rcases List.mem_cons.mp h with rfl | h
    · rintro (h | h) <;> cases h
    · obtain ⟨calls, hcalls, hs⟩ := List.mem_flatten.mp h
      obtain ⟨j, hj, rfl⟩ := List.mem_mapIdx.mp hcalls
      unfold callShape at hs
      split at hs
      · rcases List.mem_pair.mp hs with rfl | rfl <;> rintro (h | h) <;> cases h
      · cases List.mem_singleton.mp hs
        rintro (h | h) <;> cases h
  · cases h

theorem run_events (userQuery : String) :
    ∃ before event, (run env userQuery).events = before ++ [event] ∧
      (∀ e ∈ before, ¬e.type.Terminal) ∧
      shape event = terminal (run env userQuery).ending := by
  obtain ⟨r, h⟩ := loop_protocol env maxAgentIterations 0 ⟨userQuery, [], none⟩
  obtain ⟨before, last, hsplit, hbefore, hlast⟩ := List.map_eq_append_iff.mp h.events
  obtain ⟨event, rfl, hevent⟩ := List.map_eq_singleton_iff.mp hlast
  refine ⟨before, event, hsplit, ?_, hevent⟩
  intro e he
  have hmem : shape e ∈ (List.range r).flatMap fun i => roundShape env (0 + i) := by
    rw [← hbefore]
    exact List.mem_map_of_mem he
  obtain ⟨i, -, hround⟩ := List.mem_flatMap.mp hmem
  exact not_terminal_of_mem_roundShape env hround

end ContractReviewAgent

end LegalLens.Agents
