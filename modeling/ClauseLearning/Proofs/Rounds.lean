/-
  Running a step, as a sequence of steps.

  Model. `Steps` relates a state to those that steps lead to, and a run that halts ends with an
  answer or a fault some number of steps on (`Halts`).

  Rule. A run either halts before its bound or makes as many steps as the bound allows
  (`run_steps`), so it halts when fewer steps are possible (`run_halts`). Runs whose steps are
  alike are alike (`run_alike`).
-/
import Mathlib.Algebra.Group.Nat.Defs
import ClauseLearning.Proofs.Alike
import ClauseLearning.Rounds

namespace ClauseLearning.Round

variable {σ ρ ε : Type} {step : σ → Except ε (Round σ ρ)} {s s' s'' : σ} {m n k : Nat}

/-- A number of steps, none of which answers, lead from one state to the other. -/
inductive Steps (step : σ → Except ε (Round σ ρ)) : Nat → σ → σ → Prop
  /-- No step leads nowhere else. -/
  | none (s : σ) : Steps step 0 s s
  /-- One step more. -/
  | more {n : Nat} {s s' s'' : σ} (before : Steps step n s s') (last : step s' = .ok (.more s'')) :
    Steps step (n + 1) s s''

/-- The step after `n` others has the outcome `x`, an answer or a fault. -/
inductive Halts (step : σ → Except ε (Round σ ρ)) (n : Nat) (s : σ) :
    Except ε (Round σ ρ) → Prop
  /-- An answer. -/
  | done {s' : σ} {r : ρ} (before : Steps step n s s') (last : step s' = .ok (.done r)) :
    Halts step n s (.ok (.done r))
  /-- A fault. -/
  | fault {s' : σ} {e : ε} (before : Steps step n s s') (last : step s' = .error e) :
    Halts step n s (.error e)

theorem Steps.trans (h : Steps step m s s') (h' : Steps step n s' s'') :
    Steps step (m + n) s s'' := by
  induction h' with
  | none => exact h
  | more _ last ih => exact .more (ih h) last

theorem Steps.split (h : Steps step (m + n) s s'') :
    ∃ s', Steps step m s s' ∧ Steps step n s' s'' := by
  induction n generalizing s'' with
  | zero => exact ⟨s'', h, .none s''⟩
  | succ n ih =>
    cases h with
    | more before last =>
      obtain ⟨s', first, rest⟩ := ih before
      exact ⟨s', first, .more rest last⟩

/-- A number of steps leads to one state only. -/
theorem Steps.unique (h : Steps step n s s') (h' : Steps step n s s'') : s' = s'' := by
  induction n generalizing s' s'' with
  | zero =>
    cases h
    cases h'
    rfl
  | succ n ih =>
    cases h with
    | more before last =>
      cases h' with
      | more before' last' =>
        obtain rfl := ih before before'
        cases last.symm.trans last'
        rfl

/-- From a state that does not go on there are no more steps. -/
theorem Steps.le_of_ends (h : Steps step m s s') (h' : Steps step n s s'')
    (ends : ∀ t, step s' ≠ .ok (.more t)) : n ≤ m := by
  apply Nat.le_of_not_lt
  intro lt
  obtain ⟨k, rfl⟩ := Nat.exists_eq_add_of_lt lt
  rw [Nat.add_right_comm] at h'
  obtain ⟨t, first, -⟩ := h'.split
  cases first with
  | more before last => exact ends t (h.unique before ▸ last)

theorem Steps.keeps {inv : σ → Prop} (h : Steps step n s s') (start : inv s)
    (more : ∀ s s', inv s → step s = .ok (.more s') → inv s') : inv s' := by
  induction h with
  | none => exact start
  | more _ last ih => exact more _ _ (ih start) last

/-- Steps end in one state only. -/
theorem Steps.ends_unique (h : Steps step m s s') (h' : Steps step n s s'')
    (ends : ∀ t, step s' ≠ .ok (.more t)) (ends' : ∀ t, step s'' ≠ .ok (.more t)) : s' = s'' := by
  obtain rfl := Nat.le_antisymm (h'.le_of_ends h ends') (h.le_of_ends h' ends)
  exact h.unique h'

theorem Halts.after {x : Except ε (Round σ ρ)} (h : Steps step m s s') (h' : Halts step n s' x) :
    Halts step (m + n) s x := by
  cases h' with
  | done before last => exact .done (h.trans before) last
  | fault before last => exact .fault (h.trans before) last

/-- A run of up to `bound` steps with the outcome `x` has made them all or has halted before. -/
def Ran (step : σ → Except ε (Round σ ρ)) (bound : Nat) (s : σ) (x : Except ε (Round σ ρ)) :
    Prop :=
  (∃ s', x = .ok (.more s') ∧ Steps step bound s s') ∨ ∃ n, n < bound ∧ Halts step n s x

/-- Goes on from the state to which an outcome leads, unless it is an answer or a fault. -/
def andThen (x : Except ε (Round σ ρ)) (f : σ → Except ε (Round σ ρ)) : Except ε (Round σ ρ) :=
  match x with
  | .error e => .error e
  | .ok (.done r) => .ok (.done r)
  | .ok (.more s') => f s'

theorem repeatPow_succ (k : Nat) (s : σ) :
    repeatPow step (k + 1) s = andThen (repeatPow step k s) (repeatPow step k) := rfl

theorem runFrom_succ (n k : Nat) (s : σ) :
    runFrom step (n + 1) k s = andThen (repeatPow step k s) (runFrom step n (k + 1)) := rfl

theorem Ran.andThen {f : σ → Except ε (Round σ ρ)} {x : Except ε (Round σ ρ)}
    (h : Ran step m s x) (h' : ∀ s', Ran step n s' (f s')) :
    Ran step (m + n) s (andThen x f) := by
  rcases h with ⟨s', rfl, steps⟩ | ⟨k, hk, halts⟩
  · rcases h' s' with ⟨s'', e, steps'⟩ | ⟨j, hj, halts⟩
    · exact .inl ⟨s'', e, steps.trans steps'⟩
    · exact .inr ⟨m + j, Nat.add_lt_add_left hj m, halts.after steps⟩
  · refine .inr ⟨k, Nat.lt_of_lt_of_le hk (Nat.le_add_right m n), ?_⟩
    cases halts with
    | done before last => exact .done before last
    | fault before last => exact .fault before last

theorem repeatPow_steps (k : Nat) (s : σ) : Ran step (2 ^ k) s (repeatPow step k s) := by
  induction k generalizing s with
  | zero =>
    rw [repeatPow]
    cases e : step s with
    | error f => exact .inr ⟨0, Nat.one_pos, .fault (.none s) e⟩
    | ok r =>
      cases r with
      | more s' => exact .inl ⟨s', rfl, .more (.none s) e⟩
      | done r => exact .inr ⟨0, Nat.one_pos, .done (.none s) e⟩
  | succ k ih =>
    have double : 2 ^ (k + 1) = 2 ^ k + 2 ^ k := by omega
    rw [repeatPow_succ, double]
    exact (ih s).andThen ih

/-- The state with which a round goes on. -/
def state? : Round σ ρ → Option σ
  | .more s => some s
  | .done _ => Option.none

/-- Where `2 ^ k` steps were made without an answer. -/
theorem steps_of_state {r : Round σ ρ} (e : repeatPow step k s = .ok r)
    (more : r.state? = some s') : Steps step (2 ^ k) s s' := by
  rcases repeatPow_steps k s with ⟨s'', outcome, steps⟩ | ⟨n, -, halts⟩
  · cases outcome.symm.trans e
    cases more
    exact steps
  · rw [e] at halts
    cases halts
    cases more

theorem runFrom_steps (n k : Nat) (s : σ) :
    Ran step (2 ^ k * (2 ^ n - 1)) s (runFrom step n k s) := by
  induction n generalizing k s with
  | zero => exact .inl ⟨s, rfl, .none s⟩
  | succ n ih =>
    have split : 2 ^ k * (2 ^ (n + 1) - 1) = 2 ^ k + 2 ^ (k + 1) * (2 ^ n - 1) := by
      have pos := Nat.two_pow_pos n
      have once : 2 ^ (n + 1) - 1 = 2 * (2 ^ n - 1) + 1 := by omega
      rw [once, Nat.pow_succ 2 k, Nat.mul_assoc, Nat.mul_succ, Nat.add_comm]
    rw [runFrom_succ, split]
    exact (repeatPow_steps k s).andThen (ih (k + 1))

/-- A run makes `2 ^ n - 1` steps or halts before. -/
theorem run_steps (n : Nat) (s : σ) : Ran step (2 ^ n - 1) s (run step n s) := by
  have all : Ran step (2 ^ 0 * (2 ^ n - 1)) s (runFrom step n 0 s) := runFrom_steps n 0 s
  rwa [Nat.pow_zero, Nat.one_mul] at all

/-- What the steps of a run keep, up to the last one, holds of its answer. -/
theorem run_keeps (inv : σ → Prop) (answer : ρ → Prop) {r : ρ} (start : inv s)
    (more : ∀ s s', inv s → step s = .ok (.more s') → inv s')
    (done : ∀ s r, inv s → step s = .ok (.done r) → answer r)
    (e : run step n s = .ok (.done r)) : answer r := by
  have ran : Ran step (2 ^ n - 1) s (run step n s) := run_steps n s
  rw [e] at ran
  rcases ran with ⟨s', other, -⟩ | ⟨m, -, halts⟩
  · cases other
  · cases halts with
    | done before last => exact done _ _ (before.keeps start more) last

/-- A run halts when not as many steps are possible as its bound allows. -/
theorem run_halts (bounded : ∀ m s', Steps step m s s' → m < 2 ^ n - 1) :
    ∃ m, Halts step m s (run step n s) := by
  have ran : Ran step (2 ^ n - 1) s (run step n s) := run_steps n s
  rcases ran with ⟨s', -, steps⟩ | ⟨m, -, halts⟩
  · exact absurd (bounded _ _ steps) (Nat.lt_irrefl _)
  · exact ⟨m, halts⟩

/-! ## Related states -/

section Related

variable {σ' ρ' : Type} {goOn : σ → σ' → Prop} {answer : ρ → ρ' → Prop}
  {step : σ → Except Fault (Round σ ρ)} {step' : σ' → Except Fault (Round σ' ρ')}
  {s : σ} {s' : σ'}

/-- The rounds go on from related states, or end with related answers. -/
inductive Like (goOn : σ → σ' → Prop) (answer : ρ → ρ' → Prop) : Round σ ρ → Round σ' ρ' → Prop
  /-- Both go on. -/
  | more {s : σ} {s' : σ'} (h : goOn s s') : Like goOn answer (.more s) (.more s')
  /-- Both end. -/
  | done {r : ρ} {r' : ρ'} (h : answer r r') : Like goOn answer (.done r) (.done r')

theorem andThen_alike {x : Except Fault (Round σ ρ)} {x' : Except Fault (Round σ' ρ')}
    {next : σ → Except Fault (Round σ ρ)} {next' : σ' → Except Fault (Round σ' ρ')}
    (h : Alike (Like goOn answer) x x')
    (hn : ∀ s s', goOn s s' → Alike (Like goOn answer) (next s) (next' s')) :
    Alike (Like goOn answer) (andThen x next) (andThen x' next') := by
  cases x <;> cases x'
  · exact h
  · exact h.elim
  · exact h.elim
  · cases h with
    | more h => exact hn _ _ h
    | done h => exact .done h

theorem repeatPow_alike
    (h : ∀ s s', goOn s s' → Alike (Like goOn answer) (step s) (step' s')) (k : Nat)
    (related : goOn s s') :
    Alike (Like goOn answer) (repeatPow step k s) (repeatPow step' k s') := by
  induction k generalizing s s' with
  | zero => exact h s s' related
  | succ k ih =>
    rw [repeatPow_succ, repeatPow_succ]
    exact andThen_alike (ih related) fun _ _ => ih

/-- Runs are alike when their steps are. -/
theorem run_alike (h : ∀ s s', goOn s s' → Alike (Like goOn answer) (step s) (step' s')) (n : Nat)
    (related : goOn s s') : Alike (Like goOn answer) (run step n s) (run step' n s') := by
  have from' : ∀ k s s', goOn s s' →
      Alike (Like goOn answer) (runFrom step n k s) (runFrom step' n k s') := by
    induction n with
    | zero => exact fun _ _ _ => .more
    | succ n ih =>
      intro k s s' related
      rw [runFrom_succ, runFrom_succ]
      exact andThen_alike (repeatPow_alike h k related) (ih (k + 1))
  exact from' 0 s s' related

end Related

end ClauseLearning.Round
