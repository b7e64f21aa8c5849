/-
  Decision policies: who chooses the next variable to decide on.

  Model. A policy is asked for a variable when the search has to decide. It sees the assignment,
  with its changes, and the clauses, and it may say that it has taken note of the changes; it
  can change nothing else. The variable it names should be an unassigned one, and it should name
  one as long as there is one: the search checks both.
-/
import ClauseLearning.Assignment
import ClauseLearning.Clause.Store

namespace ClauseLearning

/-- The answer of a policy that was asked for a variable. -/
structure Suggestion (π : Type) where
  /-- The variable to decide on, if the policy names one. -/
  var? : Option Var
  /-- Whether the changes of the assignment are consumed. -/
  consumed : Bool
  /-- The policy as it goes on. -/
  policy : π
  deriving Repr

/-- A way to choose decisions. -/
class Policy (π : Type) where
  /-- Names the next variable to decide on. -/
  next : π → Assignment → ClauseStore → Except Fault (Suggestion π)
  /-- The value to try first for the variable named last; true unless the policy says
      otherwise. -/
  polarity : π → Var → Bool := fun _ _ => true
  /-- Tells the policy of variables that were asked for. -/
  require : π → List Var → π := fun p _ => p

/-- The assignment once a policy has answered. -/
def Suggestion.applyTo {π : Type} (s : Suggestion π) (a : Assignment) : Assignment :=
  if s.consumed then a.consume else a

end ClauseLearning
