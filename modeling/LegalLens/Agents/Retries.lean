import LegalLens.Agents.Endings

/-!
# Calls with retries

`_call_cohere` is wrapped by tenacity: it makes up to three attempts, and if all of them raise
it raises a `RetryError`. The text of that shows the future of the last attempt, which names
the class of the exception but not its text. So whatever the client raises with, the text of an
`AgentLoopError` is of one of two forms.
-/

namespace LegalLens.Agents

/-- A character that the name of a class can have. -/
def IdentifierChar (c : Char) : Prop := c.isAlphanum = true ∨ c = '_' ∨ 0x80 ≤ c.toNat

instance : DecidablePred IdentifierChar := fun c =>
  inferInstanceAs (Decidable (c.isAlphanum = true ∨ c = '_' ∨ 0x80 ≤ c.toNat))

/-- An exception that the client raises: the name of its class, and its text. -/
structure ClientException where
  className : String
  text : String
  identifier : ∀ c ∈ className.toList, IdentifierChar c

/-- `stop_after_attempt(3)`. -/
def maxAttempts : ℕ := 3

/-- `repr` of the future of an attempt that has raised; `id` is an address. -/
def futureRepr (id : ℕ) (e : ClientException) : String :=
  "<Future at 0x" ++ String.ofList (Nat.toDigits 16 id) ++ " state=finished raised " ++
    e.className ++ ">"

def retryErrorText (id : ℕ) (e : ClientException) : String :=
  "RetryError[" ++ futureRepr id e ++ "]"

variable {π ρ α : Type*}

/-- What tenacity does with a coroutine without `reraise`: the first attempt that returns
counts, and if none does the last one is reported. -/
structure Retries (retried : (ℕ → Except ClientException α) → Except String α) : Prop where
  returns : ∀ attempts k a, k < maxAttempts → (∀ i < k, ∃ e, attempts i = .error e) →
    attempts k = .ok a → retried attempts = .ok a
  raises : ∀ attempts, (∀ i < maxAttempts, ∃ e, attempts i = .error e) →
    ∃ id e, attempts (maxAttempts - 1) = .error e ∧ retried attempts = .error (retryErrorText id e)

/-- Three attempts, for an address of the last future. -/
def threeAttempts (id : ℕ) (attempts : ℕ → Except ClientException α) : Except String α :=
  match attempts 0, attempts 1, attempts 2 with
  | .ok a, _, _ => .ok a
  | .error _, .ok a, _ => .ok a
  | .error _, .error _, .ok a => .ok a
  | .error _, .error _, .error e => .error (retryErrorText id e)

theorem retries_threeAttempts (id : ℕ) :
    Retries (threeAttempts id : (ℕ → Except ClientException α) → Except String α) := by
  constructor
  · intro attempts k a hk hbefore hok
    match k, hk with
    | 0, _ => simp only [threeAttempts, hok]
    | 1, _ =>
      obtain ⟨e, he⟩ := hbefore 0 (by decide)
      simp only [threeAttempts, he, hok]
    | 2, _ =>
      obtain ⟨e, he⟩ := hbefore 0 (by decide)
      obtain ⟨e', he'⟩ := hbefore 1 (by decide)
      simp only [threeAttempts, he, he', hok]
  · intro attempts hall
    obtain ⟨e, he⟩ := hall 0 (by decide)
    obtain ⟨e', he'⟩ := hall 1 (by decide)
    obtain ⟨last, hlast⟩ := hall 2 (by decide)
    exact ⟨id, last, hlast, by simp only [threeAttempts, he, he', hlast]⟩

/-- The environment whose endpoint is called with retries, given all attempts of all
iterations. -/
def Environment.retrying (env : Environment π ρ)
    (retried : (ℕ → Except ClientException (Response π)) → Except String (Response π))
    (attempts : ℕ → ℕ → Except ClientException (Response π)) : Environment π ρ :=
  { env with llm := fun k => retried (attempts k) }

theorem Retries.of_eq_error {retried : (ℕ → Except ClientException α) → Except String α}
    (h : Retries retried) {attempts : ℕ → Except ClientException α} {text : String}
    (herror : retried attempts = .error text) :
    ∃ id e, attempts (maxAttempts - 1) = .error e ∧ text = retryErrorText id e := by
  by_cases hall : ∀ i < maxAttempts, ∃ e, attempts i = .error e
  · obtain ⟨id, e, hlast, hretried⟩ := h.raises attempts hall
    rw [hretried] at herror
    cases herror
    exact ⟨id, e, hlast, rfl⟩
  · -- The first attempt that does not raise returns.
    push Not at hall
    classical
    obtain ⟨hlt, hno⟩ := Nat.find_spec hall
    have hbefore : ∀ i < Nat.find hall, ∃ e, attempts i = .error e := by
      intro i hi
      have hmin := Nat.find_min hall hi
      push Not at hmin
      exact hmin (hi.trans hlt)
    cases hattempt : attempts (Nat.find hall) with
    | error e => exact absurd hattempt (hno e)
    | ok a =>
      rw [h.returns attempts _ a hlt hbefore hattempt] at herror
      cases herror

/-- A run raises because its iterations run out, or after three attempts of a call. -/
theorem Retries.of_raised
    {retried : (ℕ → Except ClientException (Response π)) → Except String (Response π)}
    (h : Retries retried) (env : Environment π ρ)
    (attempts : ℕ → ℕ → Except ClientException (Response π)) {userQuery text : String}
    (hraised : (ContractReviewAgent.run (env.retrying retried attempts) userQuery).ending =
      .raised text) :
    text = "max iterations exceeded" ∨ ∃ k < maxAgentIterations, ∃ id e,
      attempts k (maxAttempts - 1) = .error e ∧ text = retryErrorText id e := by
  rcases (ContractReviewAgent.ending_loop_iff _).mp hraised with ⟨k, hk, -, herror⟩ | ⟨-, htext⟩
  · rw [Nat.zero_add] at herror
    exact Or.inr ⟨k, hk, h.of_eq_error herror⟩
  · exact Or.inl htext

end LegalLens.Agents
