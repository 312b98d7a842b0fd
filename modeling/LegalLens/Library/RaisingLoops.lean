import Mathlib.Tactic

/-!
# Loops whose body may raise

A loop that collects results either reads all its items or raises. A generator yields the
results of the items in front of the first one for which its body raises. Both are described
by a relation between an item and what it stands for.
-/

namespace RaisingLoops

universe u v

theorem bind_eq_ok_iff {ε : Type u} {α β : Type v} {x : Except ε α} {f : α → Except ε β} {b : β} :
    (x >>= f) = .ok b ↔ ∃ a, x = .ok a ∧ f a = .ok b := by
  cases x with
  | error e => simp [bind, Except.bind]
  | ok a => simp [bind, Except.bind]

variable {α β γ ε : Type*}

/-- A loop appends what its items stand for, if they all stand for something. -/
theorem foldlM_eq_ok_iff {step : List γ → α → Except ε (List γ)} {R : α → β → Prop}
    {f : β → List γ}
    (hstep : ∀ acc a out, step acc a = .ok out ↔ ∃ b, R a b ∧ out = acc ++ f b)
    (acc : List γ) (as : List α) (out : List γ) :
    as.foldlM step acc = .ok out ↔ ∃ bs, List.Forall₂ R as bs ∧ out = acc ++ bs.flatMap f := by
  induction as generalizing acc with
  | nil => simp [pure, Except.pure, eq_comm]
  | cons a as ih =>
    rw [List.foldlM_cons, bind_eq_ok_iff]
    constructor
    · rintro ⟨acc', hfirst, hrest⟩
      obtain ⟨b, hb, rfl⟩ := (hstep acc a acc').mp hfirst
      obtain ⟨bs, hbs, rfl⟩ := (ih (acc ++ f b)).mp hrest
      exact ⟨b :: bs, .cons hb hbs, by simp⟩
    · rintro ⟨bs, hbs, rfl⟩
      cases hbs with
      | @cons _ b _ bs hb hbs =>
        exact ⟨acc ++ f b, (hstep acc a _).mpr ⟨b, hb, rfl⟩,
          (ih (acc ++ f b)).mpr ⟨bs, hbs, by simp⟩⟩

/-- What a generator yields, and what it raises at its end. -/
def yields (body : α → Except ε β) : List α → List β × Option ε
  | [] => ([], none)
  | a :: as =>
    match body a with
    | .error e => ([], some e)
    | .ok b => (b :: (yields body as).1, (yields body as).2)

/-- The end of a generator: its items are used up, or its body raises for the next one. -/
inductive Ends (body : α → Except ε β) : List α → Option ε → Prop where
  | finished : Ends body [] none
  | raised {a : α} {as : List α} {e : ε} (h : body a = .error e) : Ends body (a :: as) (some e)

/-- A generator yields what the items in front of its end stand for. -/
theorem yields_spec {body : α → Except ε γ} {R : α → β → Prop} {f : β → γ}
    (hbody : ∀ a c, body a = .ok c ↔ ∃ b, R a b ∧ c = f b) (as : List α) :
    ∃ done rest bs, as = done ++ rest ∧ List.Forall₂ R done bs ∧
      (yields body as).1 = bs.map f ∧ Ends body rest (yields body as).2 := by
  induction as with
  | nil => exact ⟨[], [], [], rfl, .nil, rfl, .finished⟩
  | cons a as ih =>
    rw [yields]
    cases ha : body a with
    | error e => exact ⟨[], a :: as, [], rfl, .nil, rfl, .raised ha⟩
    | ok c =>
      obtain ⟨b, hb, rfl⟩ := (hbody a c).mp ha
      obtain ⟨done, rest, bs, rfl, hbs, hyields, hend⟩ := ih
      exact ⟨a :: done, rest, b :: bs, rfl, .cons hb hbs, by rw [hyields]; rfl, hend⟩

theorem yields_of_forall₂ {body : α → Except ε γ} {R : α → β → Prop} {f : β → γ}
    (hbody : ∀ a c, body a = .ok c ↔ ∃ b, R a b ∧ c = f b) {as : List α} {bs : List β}
    (h : List.Forall₂ R as bs) : yields body as = (bs.map f, none) := by
  induction h with
  | nil => rfl
  | @cons a b as bs hb _ ih =>
    have ha : body a = .ok (f b) := (hbody a _).mpr ⟨b, hb, rfl⟩
    simp only [yields, ha, ih, List.map_cons]

end RaisingLoops
