/-
  Searches that note their decisions.

  Model. A decision opens a level with the literal that is decided on, and nothing else does. So
  the variable that a round has decided on, if it has, can be read off the solvers before and after
  the round (`Search.decision?`), without a word of the policy. Here the rounds are the same, and
  these variables are noted one after the other (`Solver.solveNoting`).

  Rule. `Solver.solveNoting_fst`: but for the notes this is `Solver.solve`. A round notes the
  variable that the policy has named, and none if it has not been asked (`Search.GoesOn.noted`).
-/
import ClauseLearning.Proofs.Solver.Budgets

namespace ClauseLearning

variable {π β : Type} [Policy π] [Termination β]

namespace Search

/-- The variable decided on between the two searches: when there is a level more, the variable of
    the last literal. -/
def decision? (q q' : Search π β) : Option Var :=
  if q.solver.level < q'.solver.level then q'.solver.trail.literals.getLast?.map Lit.var else none

/-- A round of a search with the decisions it has made. -/
def roundNoting (x : Search π β × List Var) :
    Except Fault (Round (Search π β × List Var) (Outcome π × List Var)) := do
  match ← x.1.round with
  | .more q => return .more (q, x.2 ++ (x.1.decision? q).toList)
  | .done o => return .done (o, x.2)

/-- Searches until there is an answer, and hands back the decisions. -/
def runNoting (q : Search π β) : Except Fault (Outcome π × List Var) := do
  match ← Round.run roundNoting (roundBound q.solver.assignment.numVariables) (q, []) with
  | .done x => return x
  | .more _ => .error .roundsExhausted

variable {q q' : Search π β} {o : Outcome π} {made : List Var}

theorem roundNoting_alike (x : Search π β × List Var) :
    Alike (Round.Like (fun x q => x.1 = q) fun x o => x.1 = o) (roundNoting x) x.1.round := by
  unfold roundNoting
  cases x.1.round with
  | error e => rfl
  | ok r =>
    cases r with
    | more q => exact .more rfl
    | done o => exact .done rfl

theorem runNoting_fst (q : Search π β) : Prod.fst <$> q.runNoting = q.run := by
  have step : ∀ (x : Search π β × List Var) (q : Search π β), x.1 = q →
      Alike (Round.Like (fun x q => x.1 = q) fun x o => x.1 = o) (roundNoting x) q.round :=
    fun x q e => e ▸ roundNoting_alike x
  refine Alike.map_eq ((Round.run_alike step _ rfl).bind fun x o related => ?_)
  cases related with
  | more _ => rfl
  | done e => exact e

/-- What a round has noted that goes on: nothing after a conflict, and otherwise what the policy
    named, which is counted. -/
theorem GoesOn.noted (h : q.solver.Searching) (g : q.GoesOn q') :
    (q.decision? q' = none ∧ q'.policy = q.policy ∧
        q'.solver.statistics.decisions = q.solver.statistics.decisions) ∨
      ∃ (s : Solver) (a : Suggestion π) (v : Var),
        Policy.next q.policy s.assignment s.clauses = .ok a ∧ a.var? = some v ∧
        q.decision? q' = some v ∧ q'.policy = a.policy ∧
        q'.solver.statistics.decisions = q.solver.statistics.decisions + 1 := by
  cases g with
  | @learns s s' c status _ propagated conflict above resolved _ =>
    have after := (Solver.propagate_yields h).of_ok propagated
    obtain ⟨k, t, -, back, ext⟩ := (after.resolved conflict above resolved).back
    have lower : s'.level ≤ q.solver.level := by
      change s'.trail.level ≤ q.solver.trail.level
      rw [← Trail.length_limits, ← Trail.length_limits, ext.limits, back.limits,
        after.trail.limits]
      exact List.length_take_le' ..
    have same := decisions_of_resolveConflict propagated resolved
    exact .inl ⟨if_neg (Nat.not_lt.2 lower), rfl, same⟩
  | @decides s s' a v asks answer named unassigned decided =>
    obtain ⟨-, propagated, open', -⟩ := asks
    have after := (Solver.propagate_yields h).of_ok propagated
    obtain ⟨-, -, -, opens⟩ := (Solver.decideOn_noteConsumed_yields (after.searching open')
      after.done unassigned _ _).of_ok decided
    have higher : q.solver.level < s'.level := by
      change q.solver.trail.level < s'.trail.level
      rw [← Trail.length_limits, ← Trail.length_limits, opens.limits, after.trail.limits,
        List.length_append]
      exact Nat.lt_succ_self _
    refine .inr ⟨s, a, v, answer, named, (if_pos higher).trans ?_, rfl,
      decisions_of_decideOn propagated decided⟩
    dsimp only
    rw [opens.literals, List.getLast?_concat]
    rfl

/-- What every round keeps holds of the answer, with all that was noted. -/
theorem runNoting_keeps (inv : Search π β → List Var → Prop)
    (answer : Outcome π → List Var → Prop) (h : q.solver.Searching) (start : inv q [])
    (goesOn : ∀ q q' made, q.solver.Searching → inv q made → q.GoesOn q' →
      inv q' (made ++ (q.decision? q').toList))
    (answers : ∀ q o made, q.solver.Searching → inv q made → q.Answers o → answer o made)
    (e : q.runNoting = .ok (o, made)) : answer o made := by
  obtain ⟨r, ran, e⟩ := Yields.exists_of_bind e
  cases r with
  | more _ => cases e
  | done x =>
    cases e
    refine Round.run_keeps (fun x => x.1.solver.Searching ∧ inv x.1 x.2)
      (fun x => answer x.1 x.2) ⟨h, start⟩ ?_ ?_ ran
    · rintro ⟨q, made⟩ x ⟨searching, holds⟩ more
      obtain ⟨r, round, more⟩ := Yields.exists_of_bind more
      cases r with
      | done _ => cases more
      | more q' =>
        cases more
        exact ⟨(rounded_of_ok searching round).1,
          goesOn q q' made searching holds (cases_of_round round)⟩
    · rintro ⟨q, made⟩ x ⟨searching, holds⟩ done
      obtain ⟨r, round, done⟩ := Yields.exists_of_bind done
      cases r with
      | more _ => cases done
      | done o =>
        cases done
        exact answers q o made searching holds (cases_of_round round)

end Search

namespace Solver

variable {s : Solver}

/-- Searches for an assignment that satisfies every clause, and hands back the decisions. -/
def solveNoting (s : Solver) (budget : β) (policy : π) : Except Fault (Outcome π × List Var) := do
  match s.status.infeasible? with
  | some c => return (⟨.unsatisfiable (← s.refute c), s, policy⟩, [])
  | none => Search.runNoting ⟨{ s with status := ← s.status.start }, policy, budget⟩

theorem solveNoting_eq (feasible : s.status.infeasible? = none) (budget : β) (policy : π) :
    s.solveNoting budget policy = (Search.begun s budget policy).runNoting := by
  unfold solveNoting
  rw [feasible, Status.start_eq feasible]
  rfl

theorem solveNoting_fst (s : Solver) (budget : β) (policy : π) :
    Prod.fst <$> s.solveNoting budget policy = s.solve budget policy := by
  cases hc : s.status.infeasible? with
  | none => rw [solveNoting_eq hc, solve_eq hc, Search.runNoting_fst]
  | some c =>
    unfold solveNoting solve
    rw [hc]
    dsimp only
    cases s.refute c <;> rfl

end Solver

end ClauseLearning
