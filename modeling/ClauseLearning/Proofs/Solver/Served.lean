/-
  Searches that are served.

  Model. A search is served when, in every round that it comes to, the termination condition does
  not stop it and the policy names an unassigned variable if it is asked (`Search.Served`).

  Rule. That is so when the policy always names one and the condition never stops, whatever else
  they do (`Search.Obliging`). Deciding on the lowest variable without a bound is such a pair
  (`Search.obliging_lowestFirst`).
-/
import ClauseLearning.Proofs.Solver.Answers

namespace ClauseLearning

open Round (Steps)

namespace Search

/-- When the policy is asked, there is an unassigned variable. -/
theorem Asks.unassigned {π β : Type} [Termination β] {q : Search π β} {s : Solver}
    (asks : q.Asks s) (h : q.solver.Searching) : ∃ v, s.assignment.isUnassigned v = true := by
  obtain ⟨-, propagated, -, incomplete⟩ := asks
  have sound := ((Solver.propagate_yields h).of_ok propagated).sound
  by_contra none
  have complete : s.assignment.numAssigned = s.assignment.numVariables := by
    refine (Assignment.complete_iff sound.grounded.trail.counted).2 fun v => ?_
    exact Bool.eq_false_iff.2 fun unassigned => none ⟨v, unassigned⟩
  rw [Solver.isComplete, beq_eq_false_iff_ne] at incomplete
  exact incomplete complete

variable {π β : Type} [Policy π] [Termination β] {q q' : Search π β}

/-- In every round the condition lets the search go on, and the policy names an unassigned
    variable when it is asked. -/
def Served (q : Search π β) : Prop :=
  ∀ n q', Steps round n q q' →
    (Termination.poll q'.budget).1 = false ∧ ∀ s, q'.Asks s → Named q'.policy s

/-- Policies that always name an unassigned variable and conditions that never stop. -/
structure Obliging (policies : π → Prop) (budgets : β → Prop) : Prop where
  /-- As long as there is an unassigned variable the policy names one. -/
  names : ∀ p a cs, policies p → (∃ v, a.isUnassigned v = true) →
    ∃ answer v, Policy.next p a cs = .ok answer ∧ answer.var? = some v ∧
      a.isUnassigned v = true ∧ policies answer.policy
  /-- The condition does not stop the search. -/
  goesOn : ∀ b, budgets b →
    (Termination.poll b).1 = false ∧ budgets (Termination.poll b).2
  /-- Nor does it after a decision. -/
  spends : ∀ b, budgets b → budgets (Termination.spend b)

namespace Obliging

variable {policies : π → Prop} {budgets : β → Prop}

/-- A round goes on with such a policy and such a condition. -/
theorem passes (obliging : Obliging policies budgets) (h : q.solver.Searching)
    (passes : q.Passes q') (policy : policies q.policy) (budget : budgets q.budget) :
    policies q'.policy ∧ budgets q'.budget := by
  obtain ⟨-, budget'⟩ := obliging.goesOn _ budget
  rcases passes with ⟨samePolicy, sameBudget⟩ | ⟨s, a, asks, answer, samePolicy, sameBudget⟩
  · rw [samePolicy, sameBudget]
    exact ⟨policy, budget'⟩
  · obtain ⟨a', v, answer', -, -, policy'⟩ :=
      obliging.names q.policy s.assignment s.clauses policy (asks.unassigned h)
    cases answer.symm.trans answer'
    rw [samePolicy, sameBudget]
    exact ⟨policy', obliging.spends _ budget'⟩

/-- A search with such a policy and such a condition is served. -/
theorem served (obliging : Obliging policies budgets) (h : q.solver.Searching)
    (policy : policies q.policy) (budget : budgets q.budget) : q.Served := by
  have always : ∀ n q', Steps round n q q' → policies q'.policy ∧ budgets q'.budget := by
    intro n q' steps
    induction steps with
    | none => exact ⟨policy, budget⟩
    | more before last ih =>
      obtain ⟨policy, budget⟩ := ih h policy budget
      have searching := (searching_of_steps h before).1
      obtain ⟨-, -, passes, -⟩ := rounded_of_ok searching last
      exact obliging.passes searching passes policy budget
  intro n q' steps
  obtain ⟨policy, budget⟩ := always n q' steps
  refine ⟨(obliging.goesOn _ budget).1, fun s asks => ?_⟩
  obtain ⟨a, v, answer, hv, unassigned, -⟩ := obliging.names q'.policy s.assignment s.clauses
    policy (asks.unassigned (searching_of_steps h steps).1)
  exact ⟨a, v, answer, hv, unassigned⟩

end Obliging

omit [Policy π] in
/-- Deciding on the lowest variable names an unassigned one. -/
theorem Asks.named_lowestFirst {s : Solver} (asks : q.Asks s) (h : q.solver.Searching)
    {policy : LowestFirst} : Named policy s := by
  obtain ⟨v, unassigned⟩ := asks.unassigned h
  obtain ⟨w, lowest, unassigned⟩ := Assignment.lowestUnassigned?_eq unassigned
  exact ⟨_, w, rfl, lowest, unassigned⟩

/-- Deciding on the lowest variable without a bound. -/
theorem obliging_lowestFirst :
    Obliging (π := LowestFirst) (β := Budget) (fun _ => True) (· = .unlimited) where
  names p a cs _ some := by
    obtain ⟨v, hv⟩ := some
    obtain ⟨w, lowest, unassigned⟩ := Assignment.lowestUnassigned?_eq hv
    exact ⟨_, w, rfl, lowest, unassigned, trivial⟩
  goesOn b hb := by
    rw [hb]
    exact ⟨rfl, rfl⟩
  spends b hb := by
    rw [hb]
    rfl

end Search

end ClauseLearning
