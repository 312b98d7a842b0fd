import Mathlib.Tactic

/-!
# Runs of a partial step function

A labelled transition system is a partial function from a state and an action to a
state; `none` means that the action is not enabled. A run is the iteration over a list
of actions, so quantifying over action lists is quantifying over all interleavings. The
rules below turn facts about one step into facts about every state of a run.
-/

namespace Runs

variable {σ α : Type*} (step : σ → α → Option σ)

def run (s : σ) : List α → Option σ
  | [] => some s
  | a :: as => (step s a).bind fun t => run t as

variable {step}

@[simp] theorem run_nil (s : σ) : run step s [] = some s := rfl

theorem run_append (s : σ) (as bs : List α) :
    run step s (as ++ bs) = (run step s as).bind fun t => run step t bs := by
  induction as generalizing s with
  | nil => rfl
  | cons a as ih =>
    simp only [List.cons_append, run, Option.bind_assoc, ih]

theorem run_concat_eq_some {s u : σ} {as : List α} {a : α} :
    run step s (as ++ [a]) = some u ↔ ∃ t, run step s as = some t ∧ step t a = some u := by
  rw [run_append, Option.bind_eq_some_iff]
  simp [run]

theorem exists_run_of_append {s u : σ} {as bs : List α} (h : run step s (as ++ bs) = some u) :
    ∃ t, run step s as = some t ∧ run step t bs = some u := by
  rwa [run_append, Option.bind_eq_some_iff] at h

/-- `Q` holds of every state that the run from `s` passes through. -/
def EveryState (step : σ → α → Option σ) (s : σ) (acts : List α) (Q : σ → Prop) : Prop :=
  ∀ pre post, acts = pre ++ post → ∀ t, run step s pre = some t → Q t

/-- `P` holds of every step of the run from `s`, judged by the state before the step. -/
def EveryStep (step : σ → α → Option σ) (s : σ) (acts : List α) (P : σ → α → Prop) : Prop :=
  ∀ pre a post, acts = pre ++ a :: post → ∀ t, run step s pre = some t → P t a

theorem everyStep_nil {s : σ} {P : σ → α → Prop} : EveryStep step s [] P := by
  intro pre a post heq
  simp at heq

theorem EveryStep.cons {s : σ} {a : α} {as : List α} {P : σ → α → Prop} (ha : P s a)
    (has : ∀ t, step s a = some t → EveryStep step t as P) : EveryStep step s (a :: as) P := by
  intro pre b post heq t ht
  cases pre with
  | nil =>
    cases heq
    cases ht
    exact ha
  | cons c pre =>
    cases heq
    obtain ⟨u, hu, hrest⟩ := Option.bind_eq_some_iff.mp ht
    exact has u hu pre b post rfl t hrest

/-- The check of every step of a run. -/
def checks (step : σ → α → Option σ) (check : σ → α → Bool) (s : σ) : List α → Bool
  | [] => true
  | a :: as =>
    check s a &&
      match step s a with
      | none => true
      | some t => checks step check t as

theorem everyStep_of_checks {check : σ → α → Bool} {P : σ → α → Prop}
    (hcheck : ∀ s a, check s a = true → P s a) {s : σ} {as : List α}
    (h : checks step check s as = true) : EveryStep step s as P := by
  induction as generalizing s with
  | nil => exact everyStep_nil
  | cons a as ih =>
    obtain ⟨ha, has⟩ := (Bool.and_eq_true _ _).mp h
    apply EveryStep.cons (hcheck s a ha)
    intro t ht
    rw [ht] at has
    exact ih has

theorem everyStep_of_forall_mem {s : σ} {as : List α} {A : α → Prop} (h : ∀ a ∈ as, A a) :
    EveryStep step s as fun _ a => A a := by
  rintro pre a post rfl _ _
  exact h a (by simp)

theorem everyStep_iff_forall_mem {s u : σ} {as : List α} {A : α → Prop}
    (hrun : run step s as = some u) : EveryStep step s as (fun _ a => A a) ↔ ∀ a ∈ as, A a := by
  constructor
  · intro h a ha
    obtain ⟨pre, post, rfl⟩ := List.append_of_mem ha
    obtain ⟨t, ht, -⟩ := exists_run_of_append hrun
    exact h pre a post rfl t ht
  · exact everyStep_of_forall_mem

theorem EveryStep.of_append {s : σ} {as bs : List α} {P : σ → α → Prop}
    (h : EveryStep step s (as ++ bs) P) : EveryStep step s as P := by
  intro pre a post heq
  exact h pre a (post ++ bs) (by simp [heq])

/-- An invariant that a step preserves under `P` holds at the end of a run whose steps all
satisfy `P`. -/
theorem invariant_of_everyStep {I : σ → Prop} {P : σ → α → Prop}
    (hstep : ∀ t a u, I t → P t a → step t a = some u → I u) {s u : σ} (hs : I s)
    {acts : List α} (hP : EveryStep step s acts P) (hrun : run step s acts = some u) : I u := by
  induction acts using List.reverseRecOn generalizing u with
  | nil =>
    cases hrun
    exact hs
  | append_singleton acts a ih =>
    obtain ⟨t, ht, hta⟩ := run_concat_eq_some.mp hrun
    exact hstep t a u (ih hP.of_append ht) (hP acts a [] rfl t ht) hta

theorem invariant {I : σ → Prop} (hstep : ∀ t a u, I t → step t a = some u → I u) {s u : σ}
    (hs : I s) {acts : List α} (hrun : run step s acts = some u) : I u :=
  invariant_of_everyStep (P := fun _ _ => True) (fun t a u ht _ => hstep t a u ht) hs
    (fun _ _ _ _ _ _ => trivial) hrun

theorem everyState_of_everyStep {I : σ → Prop} {P : σ → α → Prop}
    (hstep : ∀ t a u, I t → P t a → step t a = some u → I u) {s : σ} (hs : I s)
    {acts : List α} (hP : EveryStep step s acts P) : EveryState step s acts I := by
  rintro pre post rfl t ht
  exact invariant_of_everyStep hstep hs hP.of_append ht

/-- When an admissible step keeps `Q` exactly if it satisfies `P`, a run of admissible steps
keeps `Q` throughout exactly if all its steps satisfy `P`. The invariant `I` holds in any case. -/
theorem everyState_iff_everyStep_of_admissible {I Q : σ → Prop} {A P : σ → α → Prop}
    (hI : ∀ t a u, I t → A t a → step t a = some u → I u)
    (hiff : ∀ t a u, I t → A t a → Q t → step t a = some u → (Q u ↔ P t a)) {s u : σ} (hsI : I s)
    (hsQ : Q s) {acts : List α} (hA : EveryStep step s acts A) (hrun : run step s acts = some u) :
    EveryState step s acts Q ↔ EveryStep step s acts P := by
  constructor
  · rintro hQ pre a post rfl t ht
    obtain ⟨t', ht', hrest⟩ := exists_run_of_append hrun
    obtain ⟨v, hv, -⟩ := Option.bind_eq_some_iff.mp hrest
    rw [ht] at ht'
    cases ht'
    have hQv : Q v :=
      hQ (pre ++ [a]) post (by simp) v (run_concat_eq_some.mpr ⟨t, ht, hv⟩)
    have hIt : I t := invariant_of_everyStep hI hsI hA.of_append ht
    exact (hiff t a v hIt (hA pre a post rfl t ht) (hQ pre _ rfl t ht) hv).mp hQv
  · intro hP pre post heq t ht
    have hboth := everyState_of_everyStep (I := fun t => I t ∧ Q t)
      (P := fun t a => A t a ∧ P t a)
      (fun t a u htIQ hta htu =>
        ⟨hI t a u htIQ.1 hta.1 htu, (hiff t a u htIQ.1 hta.1 htIQ.2 htu).mpr hta.2⟩) ⟨hsI, hsQ⟩
      (fun pre a post heq t ht => ⟨hA pre a post heq t ht, hP pre a post heq t ht⟩)
    exact (hboth pre post heq t ht).2

theorem everyState_iff_everyStep {I Q : σ → Prop} {P : σ → α → Prop}
    (hI : ∀ t a u, I t → step t a = some u → I u)
    (hiff : ∀ t a u, I t → Q t → step t a = some u → (Q u ↔ P t a)) {s u : σ} (hsI : I s)
    (hsQ : Q s) {acts : List α} (hrun : run step s acts = some u) :
    EveryState step s acts Q ↔ EveryStep step s acts P :=
  everyState_iff_everyStep_of_admissible (A := fun _ _ => True)
    (fun t a u ht _ => hI t a u ht) (fun t a u ht _ => hiff t a u ht) hsI hsQ
    (fun _ _ _ _ _ _ => trivial) hrun

theorem everyStep_concat_iff {s t : σ} {as : List α} {a : α} {P : σ → α → Prop}
    (hrun : run step s as = some t) :
    EveryStep step s (as ++ [a]) P ↔ EveryStep step s as P ∧ P t a := by
  constructor
  · intro h
    exact ⟨h.of_append, h as a [] rfl t hrun⟩
  · rintro ⟨has, ha⟩ pre b post heq u hu
    rcases List.eq_nil_or_concat post with rfl | ⟨post, c, rfl⟩
    · obtain ⟨rfl, hb⟩ := List.append_inj' heq rfl
      cases hb
      rw [hrun] at hu
      cases hu
      exact ha
    · have hsplit : as = pre ++ b :: post := by
        have hconcat : as ++ [a] = (pre ++ b :: post) ++ [c] := by simpa using heq
        exact (List.append_inj' hconcat rfl).1
      exact has pre b post hsplit u hu

/-- When a step within `G` stays there if it satisfies `P` and else leads into `B`, which no
step leaves, a run ends in `G` exactly if all its steps satisfy `P`. -/
theorem everyStep_or_of_fork {G B : σ → Prop} {A P : σ → α → Prop}
    (hG : ∀ t a u, G t → A t a → step t a = some u → P t a ∧ G u ∨ ¬P t a ∧ B u)
    (hB : ∀ t a u, B t → A t a → step t a = some u → B u) {s u : σ} (hs : G s) {acts : List α}
    (hA : EveryStep step s acts A) (hrun : run step s acts = some u) :
    EveryStep step s acts P ∧ G u ∨ ¬EveryStep step s acts P ∧ B u := by
  induction acts using List.reverseRecOn generalizing u with
  | nil =>
    cases hrun
    exact Or.inl ⟨everyStep_nil, hs⟩
  | append_singleton acts a ih =>
    obtain ⟨t, ht, hta⟩ := run_concat_eq_some.mp hrun
    obtain ⟨hA, hAa⟩ := (everyStep_concat_iff ht).mp hA
    rw [everyStep_concat_iff ht]
    rcases ih hA ht with ⟨hP, hGt⟩ | ⟨hP, hBt⟩
    · rcases hG t a u hGt hAa hta with ⟨hPa, hGu⟩ | ⟨hPa, hBu⟩
      · exact Or.inl ⟨⟨hP, hPa⟩, hGu⟩
      · exact Or.inr ⟨fun h => hPa h.2, hBu⟩
    · exact Or.inr ⟨fun h => hP h.1, hB t a u hBt hAa hta⟩

/-- When every step from related states is matched by a run of another system, so is every run. -/
theorem exists_run_of_simulation {τ β : Type*} {step' : τ → β → Option τ} {R : σ → τ → Prop}
    (hsim : ∀ t a u v, R t v → step t a = some u → ∃ bs w, run step' v bs = some w ∧ R u w)
    {s u : σ} {v : τ} (hs : R s v) {acts : List α} (hrun : run step s acts = some u) :
    ∃ bs w, run step' v bs = some w ∧ R u w := by
  induction acts using List.reverseRecOn generalizing u with
  | nil =>
    cases hrun
    exact ⟨[], v, rfl, hs⟩
  | append_singleton acts a ih =>
    obtain ⟨t, ht, hta⟩ := run_concat_eq_some.mp hrun
    obtain ⟨bs, w, hbs, hw⟩ := ih ht
    obtain ⟨cs, x, hcs, hx⟩ := hsim t a u w hw hta
    refine ⟨bs ++ cs, x, ?_, hx⟩
    rw [run_append, hbs]
    exact hcs

/-- Some run of actions of the kind leads from one state to the other. -/
def Reaches (step : σ → α → Option σ) (A : α → Prop) (s u : σ) : Prop :=
  ∃ acts, (∀ a ∈ acts, A a) ∧ run step s acts = some u

theorem Reaches.refl {A : α → Prop} (s : σ) : Reaches step A s s := ⟨[], by simp, rfl⟩

theorem Reaches.trans {A : α → Prop} {s t u : σ} (h : Reaches step A s t)
    (h' : Reaches step A t u) : Reaches step A s u := by
  obtain ⟨as, has, hs⟩ := h
  obtain ⟨bs, hbs, ht⟩ := h'
  refine ⟨as ++ bs, fun a ha => (List.mem_append.mp ha).elim (has a) (hbs a), ?_⟩
  rw [run_append, hs]
  exact ht

theorem reaches_of_step {A : α → Prop} {s t : σ} {a : α} (ha : A a) (h : step s a = some t) :
    Reaches step A s t :=
  ⟨[a], by simpa using ha, by simp [run, h]⟩

theorem Reaches.invariant {I : σ → Prop} {A : α → Prop}
    (hstep : ∀ t a u, I t → step t a = some u → I u) {s u : σ} (hs : I s)
    (h : Reaches step A s u) : I u := by
  obtain ⟨acts, -, hrun⟩ := h
  exact Runs.invariant hstep hs hrun

/-- When every state that is not yet a goal has a step to a lighter one, a goal can be reached.
The relation collects what the steps leave unchanged. -/
theorem exists_reaches_of_weight {A : α → Prop} {I goal : σ → Prop} {R : σ → σ → Prop}
    (weight : σ → ℕ) (hrefl : ∀ s, R s s) (htrans : ∀ s t u, R s t → R t u → R s u)
    (hstep : ∀ s, I s → ¬goal s →
      ∃ a t, A a ∧ step s a = some t ∧ I t ∧ R s t ∧ weight t < weight s)
    {s : σ} (hs : I s) : ∃ u, Reaches step A s u ∧ I u ∧ goal u ∧ R s u := by
  induction hn : weight s using Nat.strong_induction_on generalizing s with
  | _ n ih =>
    by_cases hgoal : goal s
    · exact ⟨s, .refl s, hs, hgoal, hrefl s⟩
    · obtain ⟨a, t, ha, hst, ht, hR, hlt⟩ := hstep s hs hgoal
      obtain ⟨u, hu, hI, hgoal, hR'⟩ := ih (weight t) (hn ▸ hlt) ht rfl
      exact ⟨u, (reaches_of_step ha hst).trans hu, hI, hgoal, htrans s t u hR hR'⟩

/-- When related states answer every action alike, with a raise or with related states, so they
do every sequence of actions. -/
theorem rel_run {τ : Type*} {step' : τ → α → Option τ} {R : σ → τ → Prop}
    (hstep : ∀ s t a, R s t → Option.Rel R (step s a) (step' t a)) {s : σ} {t : τ} (hs : R s t)
    (acts : List α) : Option.Rel R (run step s acts) (run step' t acts) := by
  induction acts generalizing s t with
  | nil => exact .some hs
  | cons a acts ih =>
    have h := hstep s t a hs
    rw [run, run]
    generalize step s a = u, step' t a = v at h
    cases h with
    | none => exact .none
    | some h => exact ih h

/-- When every step of a component is the effect of a step of the whole, so is every run. -/
theorem exists_run_of_lift {τ β : Type*} {step' : τ → β → Option τ} {f : σ → τ} {I : σ → Prop}
    {A : α → Prop} {B : β → Prop}
    (hlift : ∀ s b t, I s → B b → step' (f s) b = some t →
      ∃ a u, A a ∧ step s a = some u ∧ f u = t ∧ I u)
    {s : σ} (hs : I s) {bs : List β} {t : τ} (hrun : run step' (f s) bs = some t)
    (hbs : ∀ b ∈ bs, B b) :
    ∃ as u, run step s as = some u ∧ f u = t ∧ I u ∧ ∀ a ∈ as, A a := by
  induction bs generalizing s with
  | nil =>
    cases hrun
    exact ⟨[], s, rfl, rfl, hs, by simp⟩
  | cons b bs ih =>
    obtain ⟨t', ht', hrest⟩ := Option.bind_eq_some_iff.mp hrun
    obtain ⟨a, v, ha, hv, rfl, hIv⟩ := hlift s b t' hs (hbs b List.mem_cons_self) ht'
    obtain ⟨as, u, has, hu, hIu, hA⟩ :=
      ih hIv hrest fun b' hb' => hbs b' (List.mem_cons_of_mem _ hb')
    refine ⟨a :: as, u, ?_, hu, hIu, ?_⟩
    · rw [run, hv]
      exact has
    · intro a' ha'
      rcases List.mem_cons.mp ha' with rfl | ha'
      · exact ha
      · exact hA a' ha'

/-- When every step projects to a step of another system or to none, so does every run. -/
theorem run_filterMap {τ β : Type*} {step' : τ → β → Option τ} {f : σ → τ} {g : α → Option β}
    (hproject : ∀ t a u, step t a = some u →
      match g a with
      | none => f u = f t
      | some b => step' (f t) b = some (f u))
    {s u : σ} {acts : List α} (hrun : run step s acts = some u) :
    run step' (f s) (acts.filterMap g) = some (f u) := by
  induction acts generalizing s with
  | nil =>
    cases hrun
    rfl
  | cons a acts ih =>
    obtain ⟨t, ht, hrest⟩ := Option.bind_eq_some_iff.mp hrun
    have hstep := hproject s a t ht
    cases hg : g a with
    | none =>
      rw [hg] at hstep
      rw [List.filterMap_cons_none hg, ← hstep]
      exact ih hrest
    | some b =>
      rw [hg] at hstep
      rw [List.filterMap_cons_some hg, run, hstep]
      exact ih hrest

end Runs
