/-
  Searches that hand back their termination condition.

  Model. The outcome of a search leaves out what has become of its termination condition, which may
  be used again. Here the rounds are the same, and with the answer comes the condition as the last
  round has left it (`Solver.solveLeaving`). A problem that is refuted without a search leaves the
  condition as it is.

  Rule. `Solver.solveLeaving_fst`: but for the condition this is `Solver.solve`.
-/
import ClauseLearning.Proofs.Solver.Run

namespace ClauseLearning

/-- The round with another answer. -/
def Round.mapDone {σ ρ ρ' : Type} (g : ρ → ρ') : Round σ ρ → Round σ ρ'
  | .more s => .more s
  | .done r => .done (g r)

variable {π β : Type} [Policy π] [Termination β]

namespace Search

/-- A round; an answer comes with the condition, which has been asked once more. -/
def roundLeaving (q : Search π β) : Except Fault (Round (Search π β) (Outcome π × β)) := do
  return (← q.round).mapDone (·, (Termination.poll q.budget).2)

/-- Searches until there is an answer, and hands back the condition. -/
def runLeaving (q : Search π β) : Except Fault (Outcome π × β) := do
  match ← Round.run roundLeaving (roundBound q.solver.assignment.numVariables) q with
  | .done x => return x
  | .more _ => .error .roundsExhausted

theorem roundLeaving_alike (q : Search π β) :
    Alike (Round.Like Eq fun x o => x.1 = o) q.roundLeaving q.round := by
  unfold roundLeaving
  cases q.round with
  | error e => rfl
  | ok r =>
    cases r with
    | more q => exact .more rfl
    | done o => exact .done rfl

theorem runLeaving_fst (q : Search π β) : Prod.fst <$> q.runLeaving = q.run := by
  have step : ∀ r r' : Search π β, r = r' →
      Alike (Round.Like Eq fun x o => x.1 = o) r.roundLeaving r'.round :=
    fun r r' e => e ▸ r.roundLeaving_alike
  refine Alike.map_eq ((Round.run_alike step _ rfl).bind fun x o related => ?_)
  cases related with
  | more _ => rfl
  | done e => exact e

end Search

namespace Solver

variable {s : Solver} {budget : β} {policy : π}

/-- Searches for an assignment that satisfies every clause, and hands back the condition. -/
def solveLeaving (s : Solver) (budget : β) (policy : π) : Except Fault (Outcome π × β) := do
  match s.status.infeasible? with
  | some c => return (⟨.unsatisfiable (← s.refute c), s, policy⟩, budget)
  | none => Search.runLeaving ⟨{ s with status := ← s.status.start }, policy, budget⟩

theorem solveLeaving_eq (feasible : s.status.infeasible? = none) (budget : β) (policy : π) :
    s.solveLeaving budget policy = (Search.begun s budget policy).runLeaving := by
  unfold solveLeaving
  rw [feasible, Status.start_eq feasible]
  rfl

theorem solveLeaving_fst (s : Solver) (budget : β) (policy : π) :
    Prod.fst <$> s.solveLeaving budget policy = s.solve budget policy := by
  cases hc : s.status.infeasible? with
  | none => rw [solveLeaving_eq hc, solve_eq hc, Search.runLeaving_fst]
  | some c =>
    unfold solveLeaving solve
    rw [hc]
    dsimp only
    cases s.refute c <;> rfl

theorem solve_of_solveLeaving {x : Outcome π × β} (e : s.solveLeaving budget policy = .ok x) :
    s.solve budget policy = .ok x.1 := by
  rw [← solveLeaving_fst, e]
  rfl

end Solver

end ClauseLearning
