import LegalLens.Library.KeyedWrites
import LegalLens.Library.Runs

/-!
# Row locks

A session executes statements on the rows of a table. Each statement locks its row until the
session ends, and what it writes is seen by others only once the session has committed. The
statements of several sessions interleave, and any session may be aborted. A commit leaves what
the whole session, executed at that moment without interruption, would leave; and sessions that
lock their rows in a common order can always end without an abort.
-/

namespace RowLocks

variable {S K V I : Type*}

/-- What a session sees: its own versions, and otherwise what is committed. -/
def overlay (committed versions : K → Option V) : K → Option V :=
  fun k => (versions k).or (committed k)

/-- The locks that are left when a session ends. -/
def release [DecidableEq I] (locks : K → Option I) (i : I) : K → Option I :=
  fun k => if locks k = some i then none else locks k

theorem release_eq_some_iff [DecidableEq I] {locks : K → Option I} {i j : I} {k : K} :
    release locks i k = some j ↔ locks k = some j ∧ j ≠ i := by
  unfold release
  split_ifs with h
  · constructor
    · intro hj
      cases hj
    · rintro ⟨hj, hne⟩
      rw [h] at hj
      exact absurd (Option.some.inj hj).symm hne
  · constructor
    · intro hj
      refine ⟨hj, ?_⟩
      rintro rfl
      exact h hj
    · exact And.left

section Serial

variable [DecidableEq K] (key : S → K) (apply : S → Option V → V)

def execute (rows : K → Option V) (st : S) : K → Option V :=
  Function.update rows (key st) (some (apply st (rows (key st))))

/-- The statements one after the other, without interruption. -/
def executeAll (rows : K → Option V) (loop : List S) : K → Option V :=
  loop.foldl (execute key apply) rows

variable {key apply}

theorem executeAll_concat (rows : K → Option V) (loop : List S) (st : S) :
    executeAll key apply rows (loop ++ [st]) =
      execute key apply (executeAll key apply rows loop) st := by
  simp [executeAll]

theorem executeAll_congr {rows rows' : K → Option V} {k : K} (h : rows k = rows' k)
    (loop : List S) : executeAll key apply rows loop k = executeAll key apply rows' loop k := by
  induction loop using List.reverseRecOn with
  | nil => exact h
  | append_singleton loop st ih =>
    rw [executeAll_concat, executeAll_concat, execute, execute, Function.update_apply,
      Function.update_apply]
    split_ifs with hk
    · rw [← hk, ih]
    · exact ih

theorem executeAll_of_notMem (rows : K → Option V) {loop : List S} {k : K}
    (h : ∀ st ∈ loop, key st ≠ k) : executeAll key apply rows loop k = rows k := by
  induction loop using List.reverseRecOn with
  | nil => rfl
  | append_singleton loop st ih =>
    rw [executeAll_concat, execute, Function.update_of_ne (h st (by simp)).symm]
    exact ih fun st' hst' => h st' (List.mem_append_left _ hst')

theorem overlay_update (committed versions : K → Option V) (k : K) (v : V) :
    overlay committed (Function.update versions k (some v)) =
      Function.update (overlay committed versions) k (some v) := by
  funext k'
  rcases eq_or_ne k' k with rfl | hne
  · simp [overlay]
  · simp [overlay, hne]

end Serial

/-- A session: the statements that it has executed, those to come, and the versions of rows that
it has written. -/
structure Session (S K V : Type*) where
  executed : List S
  rest : List S
  versions : K → Option V

/-- The statements between the beginning of the session and its commit. -/
def Session.loop (session : Session S K V) : List S := session.executed ++ session.rest

/-- The committed rows, the session that holds the lock of a row, and the open sessions. -/
structure Table (S K V I : Type*) where
  committed : K → Option V
  locks : K → Option I
  sessions : I → Option (Session S K V)

inductive Action (S I : Type*) where
  | begin (i : I) (loop : List S)
  | execute (i : I)
  | commit (i : I)
  | abort (i : I)

namespace Table

def start (rows : K → Option V) : Table S K V I := ⟨rows, fun _ => none, fun _ => none⟩

variable [DecidableEq K] (key : S → K) (apply : S → Option V → V)

/-- A session holds the locks of the rows it has written and no other session does; its versions
are what its statements would make of the committed rows at any moment until it ends. -/
structure Inv (t : Table S K V I) : Prop where
  locked : ∀ i session, t.sessions i = some session → ∀ st ∈ session.executed,
    t.locks (key st) = some i
  written : ∀ i session, t.sessions i = some session → ∀ k, session.versions k ≠ none →
    ∃ st ∈ session.executed, key st = k
  held : ∀ k i, t.locks k = some i → ∃ session, t.sessions i = some session ∧
    ∃ st ∈ session.executed, key st = k
  current : ∀ i session, t.sessions i = some session →
    overlay t.committed session.versions = executeAll key apply t.committed session.executed

theorem inv_start (rows : K → Option V) : Inv key apply (start rows : Table S K V I) :=
  ⟨(fun _ _ h => nomatch h), (fun _ _ h => nomatch h), (fun _ _ h => nomatch h),
    (fun _ _ h => nomatch h)⟩

variable [DecidableEq I]

def rollback (t : Table S K V I) (i : I) : Table S K V I :=
  { t with locks := release t.locks i, sessions := Function.update t.sessions i none }

/-- A statement waits while another session holds the lock of its row. -/
def step (t : Table S K V I) : Action S I → Option (Table S K V I)
  | .begin i loop =>
    match t.sessions i with
    | none => some { t with
        sessions := Function.update t.sessions i (some ⟨[], loop, fun _ => none⟩) }
    | some _ => none
  | .execute i =>
    match t.sessions i with
    | some ⟨executed, st :: rest, versions⟩ =>
      if t.locks (key st) = none ∨ t.locks (key st) = some i then
        some { t with
          locks := Function.update t.locks (key st) (some i)
          sessions := Function.update t.sessions i (some ⟨executed ++ [st], rest,
            Function.update versions (key st)
              (some (apply st (overlay t.committed versions (key st))))⟩) }
      else none
    | _ => none
  | .commit i =>
    match t.sessions i with
    | some ⟨_, [], versions⟩ => some
        ⟨overlay t.committed versions, release t.locks i, Function.update t.sessions i none⟩
    | _ => none
  | .abort i =>
    match t.sessions i with
    | some _ => some (t.rollback i)
    | none => none

/-- The same as `step`, one case for each kind. -/
inductive Step (t : Table S K V I) : Action S I → Table S K V I → Prop
  | begin {i : I} {loop : List S} (hi : t.sessions i = none) : Step t (.begin i loop)
      { t with sessions := Function.update t.sessions i (some ⟨[], loop, fun _ => none⟩) }
  | execute {i : I} {executed rest : List S} {st : S} {versions : K → Option V}
      (hi : t.sessions i = some ⟨executed, st :: rest, versions⟩)
      (hlock : t.locks (key st) = none ∨ t.locks (key st) = some i) : Step t (.execute i)
      { t with
        locks := Function.update t.locks (key st) (some i)
        sessions := Function.update t.sessions i (some ⟨executed ++ [st], rest,
          Function.update versions (key st)
            (some (apply st (overlay t.committed versions (key st))))⟩) }
  | commit {i : I} {executed : List S} {versions : K → Option V}
      (hi : t.sessions i = some ⟨executed, [], versions⟩) : Step t (.commit i)
      ⟨overlay t.committed versions, release t.locks i, Function.update t.sessions i none⟩
  | abort {i : I} {session : Session S K V} (hi : t.sessions i = some session) :
      Step t (.abort i) (t.rollback i)

variable {key apply} {t u : Table S K V I} {a : Action S I}

theorem step_of_eq_some (h : t.step key apply a = some u) : Step key apply t a u := by
  cases a with
  | begin i loop =>
    simp only [step] at h
    split at h <;> cases h
    next hi => exact .begin hi
  | execute i =>
    simp only [step] at h
    split at h
    next executed st rest versions hi =>
      split_ifs at h with hlock
      cases h
      exact .execute hi hlock
    · cases h
  | commit i =>
    simp only [step] at h
    split at h <;> cases h
    next hi => exact .commit hi
  | abort i =>
    simp only [step] at h
    split at h <;> cases h
    next session hi => exact .abort hi

theorem Inv.release (ht : t.Inv key apply) (i : I) {committed : K → Option V}
    (hcommitted : ∀ k, t.locks k ≠ some i → committed k = t.committed k) :
    Inv key apply ⟨committed, release t.locks i, Function.update t.sessions i none⟩ := by
  have hother : ∀ j session, Function.update t.sessions i none j = some session →
      j ≠ i ∧ t.sessions j = some session :=
    fun j session hj => KeyedWrites.update_none_eq_some_iff.mp hj
  constructor
  · intro j session hj st hst
    obtain ⟨hne, hj⟩ := hother j session hj
    exact release_eq_some_iff.mpr ⟨ht.locked j session hj st hst, hne⟩
  · intro j session hj
    exact ht.written j session (hother j session hj).2
  · intro k j hk
    obtain ⟨hlock, hne⟩ := release_eq_some_iff.mp hk
    obtain ⟨session, hj, hst⟩ := ht.held k j hlock
    exact ⟨session, (Function.update_of_ne hne ..).trans hj, hst⟩
  · intro j session hj
    obtain ⟨hne, hj⟩ := hother j session hj
    have hcurrent := ht.current j session hj
    funext k
    dsimp only
    by_cases hlock : t.locks k = some i
    · -- the row is none of those of the other session
      have hst : ∀ st ∈ session.executed, key st ≠ k := by
        rintro st hst rfl
        rw [ht.locked j session hj st hst] at hlock
        exact hne (Option.some.inj hlock)
      have hversion : session.versions k = none := by
        by_contra hversion
        obtain ⟨st, hmem, hk⟩ := ht.written j session hj k hversion
        exact hst st hmem hk
      rw [executeAll_of_notMem committed hst, overlay, hversion, Option.none_or]
    · have hk := hcommitted k hlock
      rw [executeAll_congr hk, ← hcurrent, overlay, overlay, hk]

theorem Inv.rollback (ht : t.Inv key apply) (i : I) : (t.rollback i).Inv key apply :=
  ht.release i fun _ _ => rfl

theorem Inv.begin (ht : t.Inv key apply) {i : I} (hi : t.sessions i = none) (loop : List S) :
    Inv key apply { t with
      sessions := Function.update t.sessions i (some ⟨[], loop, fun _ => none⟩) } := by
  constructor
  · intro j session hj st hst
    rcases KeyedWrites.update_eq_some_iff.mp hj with ⟨-, rfl⟩ | ⟨-, hj⟩
    · cases hst
    · exact ht.locked j session hj st hst
  · intro j session hj k hk
    rcases KeyedWrites.update_eq_some_iff.mp hj with ⟨-, rfl⟩ | ⟨-, hj⟩
    · exact absurd rfl hk
    · exact ht.written j session hj k hk
  · intro k j hk
    obtain ⟨session, hj, hst⟩ := ht.held k j hk
    have hne : j ≠ i := by
      rintro rfl
      rw [hi] at hj
      cases hj
    exact ⟨session, (Function.update_of_ne hne ..).trans hj, hst⟩
  · intro j session hj
    rcases KeyedWrites.update_eq_some_iff.mp hj with ⟨-, rfl⟩ | ⟨-, hj⟩
    · rfl
    · exact ht.current j session hj

theorem Inv.execute (ht : t.Inv key apply) {i : I} {executed rest : List S} {st : S}
    {versions : K → Option V} (hi : t.sessions i = some ⟨executed, st :: rest, versions⟩)
    (hlock : t.locks (key st) = none ∨ t.locks (key st) = some i) :
    Inv key apply { t with
      locks := Function.update t.locks (key st) (some i)
      sessions := Function.update t.sessions i (some ⟨executed ++ [st], rest,
        Function.update versions (key st)
          (some (apply st (overlay t.committed versions (key st))))⟩) } := by
  constructor
  · intro j session hj st' hst'
    dsimp only
    rcases KeyedWrites.update_eq_some_iff.mp hj with ⟨rfl, rfl⟩ | ⟨hne, hj⟩
    · rcases List.mem_append.mp hst' with hst' | hst'
      · rw [Function.update_apply]
        split_ifs
        · rfl
        · exact ht.locked j _ hi st' hst'
      · rw [List.mem_singleton.mp hst', Function.update_self]
    · have hheld := ht.locked j session hj st' hst'
      have hkey : key st' ≠ key st := by
        intro hkey
        rw [hkey] at hheld
        rcases hlock with hlock | hlock
        · rw [hlock] at hheld
          cases hheld
        · rw [hlock] at hheld
          exact hne (Option.some.inj hheld).symm
      rwa [Function.update_of_ne hkey]
  · intro j session hj k hk
    rcases KeyedWrites.update_eq_some_iff.mp hj with ⟨rfl, rfl⟩ | ⟨-, hj⟩
    · rcases eq_or_ne k (key st) with rfl | hne
      · exact ⟨st, by simp, rfl⟩
      · dsimp only at hk
        rw [Function.update_of_ne hne] at hk
        obtain ⟨st', hst', hkey⟩ := ht.written j _ hi k hk
        exact ⟨st', List.mem_append_left _ hst', hkey⟩
    · exact ht.written j session hj k hk
  · intro k j hk
    dsimp only at hk ⊢
    rcases KeyedWrites.update_eq_some_iff.mp hk with ⟨rfl, rfl⟩ | ⟨-, hk⟩
    · exact ⟨_, Function.update_self .., st, by simp, rfl⟩
    · obtain ⟨session, hj, st', hst', hkey⟩ := ht.held k j hk
      rcases eq_or_ne j i with rfl | hji
      · rw [hi] at hj
        cases hj
        exact ⟨_, Function.update_self .., st', List.mem_append_left _ hst', hkey⟩
      · exact ⟨session, (Function.update_of_ne hji ..).trans hj, st', hst', hkey⟩
  · intro j session hj
    rcases KeyedWrites.update_eq_some_iff.mp hj with ⟨rfl, rfl⟩ | ⟨-, hj⟩
    · have hcurrent := ht.current j _ hi
      dsimp only at hcurrent ⊢
      rw [overlay_update, executeAll_concat, ← hcurrent]
      rfl
    · exact ht.current j session hj

theorem inv_step (ht : t.Inv key apply) (h : t.step key apply a = some u) :
    u.Inv key apply := by
  cases step_of_eq_some h with
  | begin hi => exact ht.begin hi _
  | execute hi hlock => exact ht.execute hi hlock
  | @commit i executed versions hi =>
    refine ht.release i fun k hk => ?_
    have hversion : versions k = none := by
      by_contra hversion
      obtain ⟨st, hst, rfl⟩ := ht.written i _ hi k hversion
      exact hk (ht.locked i _ hi st hst)
    rw [overlay, hversion, Option.none_or]
  | @abort i session hi => exact ht.rollback i

/-- A commit leaves what the whole session would leave if it were executed at that moment. -/
theorem committed_of_commit (ht : t.Inv key apply) {i : I}
    (h : t.step key apply (.commit i) = some u) :
    ∃ session, t.sessions i = some session ∧
      u.committed = executeAll key apply t.committed session.loop := by
  cases step_of_eq_some h with
  | commit hi =>
    refine ⟨_, hi, (ht.current i _ hi).trans ?_⟩
    rw [Session.loop, List.append_nil]

theorem committed_of_ne_commit (h : t.step key apply a = some u) (ha : ∀ i, a ≠ .commit i) :
    u.committed = t.committed := by
  cases step_of_eq_some h with
  | commit hi => exact absurd rfl (ha _)
  | _ => rfl

theorem loop_of_step (h : t.step key apply a = some u) {j : I} {session : Session S K V}
    (hj : u.sessions j = some session) :
    a = .begin j session.loop ∨
      ∃ before, t.sessions j = some before ∧ before.loop = session.loop := by
  cases step_of_eq_some h with
  | begin hi =>
    rcases KeyedWrites.update_eq_some_iff.mp hj with ⟨rfl, rfl⟩ | ⟨-, hj⟩
    · exact Or.inl rfl
    · exact Or.inr ⟨session, hj, rfl⟩
  | execute hi hlock =>
    rcases KeyedWrites.update_eq_some_iff.mp hj with ⟨rfl, rfl⟩ | ⟨-, hj⟩
    · exact Or.inr ⟨_, hi, List.append_cons ..⟩
    · exact Or.inr ⟨session, hj, rfl⟩
  | commit hi => exact Or.inr ⟨session, (KeyedWrites.update_none_eq_some_iff.mp hj).2, rfl⟩
  | abort hi => exact Or.inr ⟨session, (KeyedWrites.update_none_eq_some_iff.mp hj).2, rfl⟩

theorem sessions_of_end {i : I} (ha : a = .commit i ∨ a = .abort i)
    (h : t.step key apply a = some u) : u.sessions i = none := by
  cases step_of_eq_some h with
  | begin | execute => simp at ha
  | commit hi =>
    obtain rfl : _ = i := by simpa using ha
    exact Function.update_self ..
  | abort hi =>
    obtain rfl : _ = i := by simpa using ha
    exact Function.update_self ..

theorem exists_session {i : I} (ha : a ∈ [Action.execute i, .commit i])
    (h : t.step key apply a = some u) : ∃ session, t.sessions i = some session := by
  cases step_of_eq_some h with
  | begin | abort => simp at ha
  | execute hi | commit hi =>
    obtain rfl : _ = i := by simpa using ha
    exact ⟨_, hi⟩

section Waiting

/-- The sessions lock rows for the first time in a common order. -/
def Ordered (key : S → K) (rank : K → ℕ) (t : Table S K V I) : Prop :=
  ∀ i session, t.sessions i = some session → ∀ pre st post, session.loop = pre ++ st :: post →
    (∃ st' ∈ pre, key st' = key st) ∨ ∀ st' ∈ pre, rank (key st') < rank (key st)

variable {rank : K → ℕ}

def remaining (t : Table S K V I) (i : I) : ℕ :=
  match t.sessions i with
  | none => 0
  | some session => session.rest.length + 1

/-- The rank of the row that a session locks next. -/
def nextRank (key : S → K) (rank : K → ℕ) (t : Table S K V I) (i : I) : ℕ :=
  match t.sessions i with
  | some ⟨_, st :: _, _⟩ => rank (key st)
  | _ => 0

/-- A session that cannot go on waits for another one, which is to lock a row of a higher rank or
can go on itself. -/
theorem exists_blocking (ht : t.Inv key apply) (hordered : t.Ordered key rank) {i : I}
    (hi : t.sessions i ≠ none)
    (hstuck : ∀ j, t.sessions j ≠ none → ∀ a ∈ [Action.execute j, .commit j],
      t.step key apply a = none) :
    ∃ j, t.sessions j ≠ none ∧ t.nextRank key rank i < t.nextRank key rank j := by
  have hwaits : ∀ j, t.sessions j ≠ none → ∃ executed st rest versions l,
      t.sessions j = some ⟨executed, st :: rest, versions⟩ ∧ t.locks (key st) = some l ∧ l ≠ j := by
    intro j hj
    obtain ⟨⟨executed, rest, versions⟩, hsession⟩ := Option.ne_none_iff_exists'.mp hj
    cases rest with
    | nil =>
      have hcommit := hstuck j hj (.commit j) (by simp)
      simp [step, hsession] at hcommit
    | cons st rest =>
      have hexecute := hstuck j hj (.execute j) (by simp)
      simp only [step, hsession] at hexecute
      split_ifs at hexecute with hlock
      obtain ⟨hfree, hown⟩ := not_or.mp hlock
      obtain ⟨l, hl⟩ := Option.ne_none_iff_exists'.mp hfree
      refine ⟨executed, st, rest, versions, l, hsession, hl, ?_⟩
      rintro rfl
      exact hown hl
  obtain ⟨executed, st, rest, versions, j, hsession, hlock, hne⟩ := hwaits i hi
  obtain ⟨session, hj, st₀, hst₀, hkey⟩ := ht.held (key st) j hlock
  obtain ⟨executed', st', rest', versions', l, hsession', hlock', hne'⟩ :=
    hwaits j (by simp [hj])
  rw [hj] at hsession'
  cases hsession'
  refine ⟨j, by simp [hj], ?_⟩
  simp only [nextRank, hsession, hj]
  rcases hordered j _ hj executed' st' rest' rfl with ⟨st'', hst'', heq⟩ | hless
  · have hheld := ht.locked j _ hj st'' hst''
    rw [heq, hlock'] at hheld
    exact absurd (Option.some.inj hheld) hne'
  · rw [← hkey]
    exact hless st₀ hst₀

theorem exists_step (ht : t.Inv key apply) (hordered : t.Ordered key rank) {ids : Finset I}
    (hids : ∀ i, t.sessions i ≠ none → i ∈ ids) {i : I} (hi : t.sessions i ≠ none) :
    ∃ j, t.sessions j ≠ none ∧ ∃ a ∈ [Action.execute j, .commit j], ∃ u,
      t.step key apply a = some u := by
  by_contra hnone
  have hstuck : ∀ j, t.sessions j ≠ none → ∀ a ∈ [Action.execute j, .commit j],
      t.step key apply a = none := by
    intro j hj a ha
    by_contra hstep
    obtain ⟨u, hu⟩ := Option.ne_none_iff_exists'.mp hstep
    exact hnone ⟨j, hj, a, ha, u, hu⟩
  let waiting := ids.filter fun j => (t.sessions j).isSome
  have hwaiting : ∀ j, j ∈ waiting ↔ t.sessions j ≠ none := by
    intro j
    rw [Finset.mem_filter, Option.isSome_iff_ne_none]
    exact ⟨And.right, fun hj => ⟨hids j hj, hj⟩⟩
  obtain ⟨j, hj, hmax⟩ :=
    waiting.exists_max_image (t.nextRank key rank) ⟨i, (hwaiting i).mpr hi⟩
  obtain ⟨l, hl, hlt⟩ := exists_blocking ht hordered ((hwaiting j).mp hj) hstuck
  exact absurd hlt (not_lt.mpr (hmax l ((hwaiting l).mpr hl)))

theorem Ordered.step {j : I} (hordered : t.Ordered key rank)
    (ha : a ∈ [Action.execute j, .commit j]) (h : t.step key apply a = some u) :
    u.Ordered key rank := by
  intro i session hi
  rcases loop_of_step h hi with rfl | ⟨before, hbefore, hloop⟩
  · simp at ha
  · rw [← hloop]
    exact hordered i before hbefore

theorem remaining_step {j : I} (ha : a ∈ [Action.execute j, .commit j])
    (h : t.step key apply a = some u) :
    u.remaining j < t.remaining j ∧ ∀ i ≠ j, u.sessions i = t.sessions i := by
  cases step_of_eq_some h with
  | begin | abort => simp at ha
  | @execute i executed rest st versions hi hlock =>
    obtain rfl : i = j := by simpa using ha
    refine ⟨?_, fun l hne => Function.update_of_ne hne ..⟩
    simp [remaining, hi]
  | @commit i executed versions hi =>
    obtain rfl : i = j := by simpa using ha
    refine ⟨?_, fun l hne => Function.update_of_ne hne ..⟩
    simp [remaining, hi]

/-- Statements and commits alone end all sessions: nobody has to be aborted. -/
theorem exists_run_to_end (ht : t.Inv key apply) (hordered : t.Ordered key rank) (ids : Finset I)
    (hids : ∀ i, t.sessions i ≠ none → i ∈ ids) :
    ∃ acts u, Runs.run (step key apply) t acts = some u ∧ (∀ i, u.sessions i = none) ∧
      ∀ a ∈ acts, ∃ j, a ∈ [Action.execute j, .commit j] := by
  induction hn : ∑ i ∈ ids, t.remaining i using Nat.strong_induction_on generalizing t with
  | _ n ih =>
    by_cases hopen : ∃ i, t.sessions i ≠ none
    · obtain ⟨i, hi⟩ := hopen
      obtain ⟨j, hj, a, ha, u, hu⟩ := exists_step ht hordered hids hi
      obtain ⟨hless, hothers⟩ := remaining_step ha hu
      have hsum : ∑ i ∈ ids, u.remaining i < n := by
        rw [← hn]
        apply Finset.sum_lt_sum
        · intro l _
          rcases eq_or_ne l j with rfl | hne
          · exact hless.le
          · rw [remaining, remaining, hothers l hne]
        · exact ⟨j, hids j hj, hless⟩
      have hids' : ∀ l, u.sessions l ≠ none → l ∈ ids := by
        intro l hl
        rcases eq_or_ne l j with rfl | hne
        · exact hids l hj
        · rw [hothers l hne] at hl
          exact hids l hl
      obtain ⟨acts, v, hrun, hend, hacts⟩ :=
        ih _ hsum (inv_step ht hu) (hordered.step ha hu) hids' rfl
      refine ⟨a :: acts, v, ?_, hend, ?_⟩
      · rw [Runs.run, hu]
        exact hrun
      · intro b hb
        rcases List.mem_cons.mp hb with rfl | hb
        · exact ⟨j, ha⟩
        · exact hacts b hb
    · refine ⟨[], t, rfl, ?_, by simp⟩
      intro i
      by_contra hi
      exact hopen ⟨i, hi⟩

end Waiting

end Table

end RowLocks
