/-
  Solutions: what an assignment says once it is an answer.

  A solution is an assignment that was taken when every variable of the problem had a value. It
  is a value of its own, so it stays what it is whatever becomes of the solver.
-/
import ClauseLearning.Assignment
import ClauseLearning.Clause.Store

namespace ClauseLearning

/-- An assignment taken as an answer. -/
structure Solution where
  /-- The assignment. -/
  assignment : Assignment
  deriving Repr, DecidableEq

namespace Solution

/-- The value of a variable, if it is part of the problem. -/
def value? (s : Solution) (v : Var) : Option Bool := s.assignment.value? v

/-- The truth value of a literal, if its variable is part of the problem. -/
def litValue? (s : Solution) (l : Lit) : Option Bool := s.assignment.litValue? l

/-- The number of variables of the problem. -/
def numVariables (s : Solution) : Nat := s.assignment.numVariables

/-- The variables with their values, in increasing order. -/
def values (s : Solution) : List (Var × Bool) :=
  s.assignment.knownVariables.filterMap fun v => (s.value? v).map fun b => (v, b)

/-- For every variable the literal that is true, in increasing order. -/
def literals (s : Solution) : List Lit := s.values.map fun (v, b) => ⟨v, b⟩

/-- The variables that are true, as literals. -/
def trueLiterals (s : Solution) : List Lit := s.literals.filter Lit.positive

/-- Whether a literal of the clause is true. -/
def satisfies (s : Solution) (c : Clause) : Bool := s.assignment.satisfies c.literals

/-- Whether every clause of the store that was given, not learned, has a true literal. -/
def satisfiesGiven (s : Solution) (store : ClauseStore) : Bool :=
  store.toList.all fun c => c.learned || s.satisfies c

end Solution

end ClauseLearning
