/-
  Faults: the ways in which an operation can be used against its contract.

  A fault is not an answer about the problem. It says that the caller broke a rule that the
  operation checks (a position past the end, a second value for a variable, a decision that is
  no decision), and nothing is promised about the operation's effects. An operation that can
  meet one returns `Except Fault`. Some faults have a text, which `Fault.message?` gives.
-/
import ClauseLearning.Lit
import ClauseLearning.Assignment.VarState

namespace ClauseLearning

/-- A broken rule of use. -/
inductive Fault where
  /-- A table or list was read or written past its end. -/
  | outOfRange
  /-- A number grew past the width it is kept in. -/
  | overflow
  /-- A number was taken from a smaller one. -/
  | underflow
  /-- A variable with a value was given the other value. -/
  | reassigned (v : Var) (previous new : VarState)
  /-- The root level was to be left. -/
  | rootLevelPopped
  /-- An assignment was to be undone and there is none. -/
  | nothingToUndo
  /-- The level to go back to lies beyond the current one. -/
  | levelNotReached
  /-- A clause of fewer than two literals was to be watched. -/
  | clauseTooShort
  /-- A watched literal has no watcher, or more than one. -/
  | watchMiscounted
  /-- A watched literal is false next to one that is not true. -/
  | falseWatch (clause : List Lit) (watched other : Lit)
  /-- The conflicting clause has no literal on the current decision level. -/
  | noLiteralOnLevel
  /-- The analysis of a conflict ran past the start of the trail. -/
  | trailExhausted
  /-- The literal is to be resolved away and has no reason. -/
  | reasonMissing (l : Lit)
  /-- A clause was added above the root level. -/
  | clauseAboveRoot
  /-- A refutation was asked for above the root level. -/
  | refutationAboveRoot
  /-- The solver's status does not allow the change. -/
  | statusOutOfOrder
  /-- The policy selected nothing while so many variables are unassigned. -/
  | nothingSelected (unassigned : Nat)
  /-- The policy selected a variable that is not an unassigned one. -/
  | wrongSelection (v : Var)
  /-- The literal to assume has a value already. -/
  | assumedAssigned
  /-- The asserting literal of a learned clause is false after backjumping. -/
  | assertingFalse (l : Lit)
  /-- A priority queue does not hold exactly the unassigned variables. -/
  | queueOutOfStep
  /-- A loop did not end within the number of rounds that suffices for a sound state. -/
  | roundsExhausted
  deriving DecidableEq, Repr

/-- The way a list of literals is written: in brackets, separated by commas. -/
def Lit.writeList (ls : List Lit) : String := "[" ++ ", ".intercalate (ls.map toString) ++ "]"

namespace Fault


/-- The text of the fault, where it has one. -/
def message? : Fault → Option String
  | reassigned v previous new =>
    some s!"Variable {v} is reassigned from {previous} to {new} without being unassigned"
  | rootLevelPopped => some "Cannot pop the root decision level"
  | nothingToUndo => some "Attempted to undo an assignment on an empty trail"
  | falseWatch clause watched other =>
    let text := Lit.writeList clause
    some s!"Clause {text} has false watched literal {watched} next to {other}"
  | noLiteralOnLevel => some "The conflict has no literal on the current decision level"
  | reasonMissing l =>
    some s!"Literal {l} is resolved during conflict analysis but has no reason"
  | clauseAboveRoot => some "Clauses can only be added at the root level"
  | nothingSelected n =>
    some s!"The decision policy did not select a variable while {n} variables are unassigned"
  | wrongSelection v =>
    some s!"The decision policy selected {v}, which is not an unassigned variable"
  | assertingFalse l => some s!"The asserting literal {l} is false after backjumping"
  | _ => none

end Fault

/-- The difference of two counts, of which the second must not be the greater one. -/
@[inline] def difference (m n : Nat) : Except Fault Nat :=
  if n ≤ m then .ok (m - n) else .error .underflow

theorem difference_eq {m n : Nat} (h : n ≤ m) : difference m n = .ok (m - n) := if_pos h

end ClauseLearning
