/-
  The search.

  Model. A search is a solver with a policy and a termination condition. In every round it asks
  the condition, propagates, and then does one of three things: it resolves a conflict, it
  answers, or it makes a decision. A conflict at the root means that there is no solution; when
  every variable has a value without a conflict, the assignment is a solution. With an answer the
  solver is back at the root.

  A round either adds a learned clause that was not there before or makes a decision, so the
  rounds are bounded in the number of variables; the bound given to `Round.run` is far beyond.
-/
import ClauseLearning.Assignment.Solution
import ClauseLearning.Budget
import ClauseLearning.Policy
import ClauseLearning.Rounds
import ClauseLearning.Solver.Resolve

namespace ClauseLearning

/-- The answer of a search. -/
inductive Verdict where
  /-- There is a solution. -/
  | satisfiable (s : Solution)
  /-- There is none, for the given reasons. -/
  | unsatisfiable (w : Refutation)
  /-- The search has given up. -/
  | unknown
  deriving Repr, DecidableEq

/-- A search on its way. -/
structure Search (π β : Type) where
  /-- The solver. -/
  solver : Solver
  /-- The policy that decides. -/
  policy : π
  /-- When to give up. -/
  budget : β
  deriving Repr

/-- The answer of a search, with the solver and the policy as it leaves them. -/
structure Outcome (π : Type) where
  /-- The answer. -/
  verdict : Verdict
  /-- The solver. -/
  solver : Solver
  /-- The policy. -/
  policy : π
  deriving Repr

namespace Solver

/-- Propagates, with `before` literals on the trail; a conflict is entered into the status. -/
def propagateFrom (before : Nat) (s : Solver) : Except Fault Solver :=
  match s with
  | ⟨status, propagation, learned, statistics, skip⟩ => do
    let (conflict, propagation) ← propagation.propagate
    let grown ← difference propagation.trail.length before
    let statistics := { statistics with propagations := statistics.propagations + grown }
    match conflict with
    | none => return ⟨status, propagation, learned, statistics, skip⟩
    | some c =>
      let statistics := { statistics with conflicts := statistics.conflicts + 1 }
      return ⟨← status.meet c, propagation, learned, statistics, skip⟩

/-- Propagates; a conflict is entered into the status. -/
def propagate (s : Solver) : Except Fault Solver := s.propagateFrom s.trail.length

/-- Takes note that a policy has consumed the changes, if it has. -/
def noteConsumed (s : Solver) (consumed : Bool) : Solver :=
  match s with
  | ⟨status, ⟨trail, clauses, watches, next⟩, learned, statistics, skip⟩ =>
    let trail := if consumed then trail.consume else trail
    ⟨status, ⟨trail, clauses, watches, next⟩, learned, statistics, skip⟩

/-- Opens a decision level with a literal over `v`. -/
def decideOn (s : Solver) (v : Var) (polarity : Bool) : Except Fault Solver := do
  match Lit.ofVar? v polarity with
  | none => .error .overflow
  | some l =>
    let s ← s.assume l
    let count := s.statistics.decisions + 1
    return { s with statistics := { s.statistics with decisions := count } }

/-- Goes back to the root with the given status. -/
def leave (s : Solver) (status : Status) : Except Fault Solver :=
  { s with status := status }.cancelUntil 0

/-- Deals with a clause in conflict: at the root the problem is refuted, above it a clause is
    learned. -/
def onConflict (s : Solver) (c : ClauseRef) : Except Fault (Option Verdict × Solver) := do
  if s.trail.atRoot then
    let s := { s with status := ← s.status.fail c }
    return (some (.unsatisfiable (← s.refute c)), s)
  else
    let s ← s.resolveConflict c
    return (none, { s with status := ← s.status.start })

/-- Whether every variable of the problem has a value. -/
def isComplete (s : Solver) : Bool := s.assignment.numAssigned == s.assignment.numVariables

/-- Ends the search with the assignment as the solution. -/
def succeed (s : Solver) : Except Fault (Verdict × Solver) := do
  let solution : Solution := ⟨s.assignment⟩
  return (.satisfiable solution, ← s.leave (← s.status.finish))

end Solver

namespace Search

variable {π β : Type}

/-- Asks the policy for a variable and decides on it. -/
def decide [Policy π] [Termination β] : Search π β → Except Fault (Search π β)
  | ⟨solver, policy, budget⟩ => do
    let unassigned ← difference solver.assignment.numVariables solver.assignment.numAssigned
    let answer ← Policy.next policy solver.assignment solver.clauses
    match answer.var? with
    | none => .error (.nothingSelected unassigned)
    | some v =>
      if !solver.assignment.isUnassigned v then .error (.wrongSelection v)
      else
        let solver := solver.noteConsumed answer.consumed
        let solver ← solver.decideOn v (Policy.polarity answer.policy v)
        return ⟨solver, answer.policy, Termination.spend budget⟩

/-- One round of the search. -/
def round [Policy π] [Termination β] :
    Search π β → Except Fault (Round (Search π β) (Outcome π))
  | ⟨solver, policy, budget⟩ => do
    let (stop, budget) := Termination.poll budget
    if stop then
      return .done ⟨.unknown, ← solver.leave (← solver.status.stop), policy⟩
    else
      let s ← solver.propagate
      match s.status with
      | .conflicting c =>
        match ← s.onConflict c with
        | (some v, s) => return .done ⟨v, s, policy⟩
        | (none, s) => return .more ⟨s, policy, budget⟩
      | _ =>
        if s.isComplete then
          let (v, s) ← s.succeed
          return .done ⟨v, s, policy⟩
        else return .more (← decide ⟨s, policy, budget⟩)

/-- The logarithm of a number of rounds beyond those a search over `n` variables can take. -/
def roundBound (n : Nat) : Nat := (n + 2) * (n + 2)

/-- Searches until there is an answer. -/
def run [Policy π] [Termination β] (q : Search π β) : Except Fault (Outcome π) := do
  match ← Round.run round (roundBound q.solver.assignment.numVariables) q with
  | .done outcome => return outcome
  | .more _ => .error .roundsExhausted

end Search

/-- Searches for an assignment of the variables that satisfies every clause. A problem that is
    known to have no solution is refuted without a search. -/
def Solver.solve {π β : Type} [Policy π] [Termination β] (s : Solver) (budget : β) (policy : π) :
    Except Fault (Outcome π) := do
  match s.status.infeasible? with
  | some c => return ⟨.unsatisfiable (← s.refute c), s, policy⟩
  | none => Search.run ⟨{ s with status := ← s.status.start }, policy, budget⟩

end ClauseLearning
