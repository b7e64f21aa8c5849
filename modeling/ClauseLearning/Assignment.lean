/-
  Assignments: the state of every variable, and what has changed since it was last asked.

  Model. An assignment is a table of states, `missing` beyond its end. Next to it stands a log of
  what was touched since the changes were last consumed; a change is a variable whose state now
  differs from its state then. The numbers of variables and of values are kept beside the table.

  A variable with a value takes the other value only after it has lost the first one.
-/
import ClauseLearning.Assignment.ChangeLog
import ClauseLearning.Table

namespace ClauseLearning

/-- The states of the variables. -/
structure Assignment where
  /-- The states now, by variable. -/
  states : Table VarState
  /-- What was touched since the changes were last consumed. -/
  log : ChangeLog
  /-- How many variables have a value. -/
  numAssigned : Nat
  /-- How many variables are part of the problem. -/
  numVariables : Nat
  deriving Repr, DecidableEq

namespace Assignment

/-- The assignment in which every variable is missing. -/
def empty : Assignment := ⟨.empty, .empty, 0, 0⟩

instance : Inhabited Assignment := ⟨empty⟩

instance : EmptyCollection Assignment := ⟨empty⟩

/-- The state of a variable in a table of states. -/
@[inline] def stateIn (t : Table VarState) (v : Var) : VarState := (t.get? v).getD .missing

/-- The state of a variable. -/
@[inline] def state (a : Assignment) (v : Var) : VarState := stateIn a.states v

/-- Whether the variable is part of the problem. -/
def contains (a : Assignment) (v : Var) : Bool := (a.state v).isKnown

/-- Whether the variable has a value. -/
def isAssigned (a : Assignment) (v : Var) : Bool := (a.state v).isAssigned

/-- Whether the variable is part of the problem and has no value. -/
@[inline] def isUnassigned (a : Assignment) (v : Var) : Bool := (a.state v).isUnassigned

/-- The value of a variable, if it has one. -/
@[inline] def value? (a : Assignment) (v : Var) : Option Bool := (a.state v).value?

/-- The truth value of a literal, if its variable has a value. -/
@[inline] def litValue? (a : Assignment) (l : Lit) : Option Bool :=
  (a.value? l.var).map fun b => b == l.positive

/-- Whether the literal is true. -/
@[inline] def isTrue (a : Assignment) (l : Lit) : Bool :=
  match a.litValue? l with
  | some b => b
  | none => false

/-- Whether the literal is false. -/
@[inline] def isFalse (a : Assignment) (l : Lit) : Bool :=
  match a.litValue? l with
  | some b => !b
  | none => false

/-- Whether one of the literals is true. -/
def satisfies (a : Assignment) (ls : List Lit) : Bool := ls.any a.isTrue

/-- Every variable with a state is below this number. -/
def capacity (a : Assignment) : Nat := a.states.size

/-- The count `n` of the variables with a property, after one state has become another. -/
@[inline] def recount (has : VarState → Bool) (n : Nat) (previous new : VarState) :
    Except Fault Nat := do
  return (← difference n (has previous).toNat) + (has new).toNat

/-- Replaces the state of a variable below the capacity. -/
def put (a : Assignment) (v : Var) (new : VarState) : Except Fault Assignment :=
  match a with
  | ⟨states, log, numAssigned, numVariables⟩ => do
    let previous := stateIn states v
    let numAssigned ← recount VarState.isAssigned numAssigned previous new
    let numVariables ← recount VarState.isKnown numVariables previous new
    let states ← states.set v new
    return ⟨states, log.note v previous, numAssigned, numVariables⟩

/-- Makes room for a variable, which is missing if the room is new. -/
def reserve (a : Assignment) (v : Var) : Assignment :=
  match a with
  | ⟨states, log, numAssigned, numVariables⟩ =>
    ⟨states.grow v .missing, log, numAssigned, numVariables⟩

/-- Makes a variable part of the problem, with the given value or none. -/
def set (a : Assignment) (v : Var) (value : Option Bool) : Except Fault Assignment :=
  match a.state v, VarState.ofValue value with
  | .assigned true, .assigned false =>
    .error (.reassigned v (.assigned true) (.assigned false))
  | .assigned false, .assigned true =>
    .error (.reassigned v (.assigned false) (.assigned true))
  | _, new => (a.reserve v).put v new

/-- Takes a variable out of the problem. -/
def remove (a : Assignment) (v : Var) : Except Fault Assignment :=
  if a.contains v then a.put v .missing else .ok a

/-- The variables with a property of their state, in increasing order. -/
@[inline] def select (a : Assignment) (has : VarState → Bool) : List Var :=
  a.states.keysWith has

/-- The variables of the problem, in increasing order. -/
def knownVariables (a : Assignment) : List Var := a.select VarState.isKnown

/-- The variables with a value, in increasing order. -/
def assignedVariables (a : Assignment) : List Var := a.select VarState.isAssigned

/-- The variables of the problem without a value, in increasing order. -/
def unassignedVariables (a : Assignment) : List Var := a.select VarState.isUnassigned

/-- The lowest variable of the problem without a value. -/
def lowestUnassigned? (a : Assignment) : Option Var :=
  a.states.firstKey? VarState.isUnassigned

/-- The changes since they were last consumed, in increasing order of the variables. -/
def changes (a : Assignment) : List Change := a.log.changes a.state

/-- Whether there is a change. -/
def hasChanges (a : Assignment) : Bool := a.log.hasChanges a.state

/-- Begins a new list of changes. -/
def consume (a : Assignment) : Assignment := { a with log := .empty }

end Assignment

end ClauseLearning
