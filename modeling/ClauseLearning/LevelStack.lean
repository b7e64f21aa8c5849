/-
  Stacks of values split into levels.

  Model. Values are pushed in time order. A level begins where it is opened and ends where the
  next one begins; the level of the stack is the number of open levels, and level 0, the root,
  is never left. Leaving a level gives the place where it began and leaves the values to the
  caller, who takes them off one by one.
-/
import ClauseLearning.Fault

namespace ClauseLearning

/-- Values in time order, with the places where levels begin. -/
structure LevelStack (α : Type u) where
  /-- The values, oldest first. -/
  values : Array α
  /-- Where the open levels begin, the current one last. -/
  limits : Array Nat
  deriving Repr, DecidableEq

namespace LevelStack

variable {α : Type u}

/-- The stack without values at the root. -/
def empty : LevelStack α := ⟨#[], #[]⟩

instance : Inhabited (LevelStack α) := ⟨empty⟩

/-- The number of values. -/
def size (s : LevelStack α) : Nat := s.values.size

/-- The current level. -/
def level (s : LevelStack α) : Nat := s.limits.size

/-- The value at a place, counted from the oldest. -/
def get? (s : LevelStack α) (i : Nat) : Option α := s.values[i]?

/-- The values, oldest first. -/
def toList (s : LevelStack α) : List α := s.values.toList

/-- Adds a value. -/
def push (s : LevelStack α) (a : α) : LevelStack α := { s with values := s.values.push a }

/-- Takes off the newest value, if there is one. -/
def pop (s : LevelStack α) : Option α × LevelStack α :=
  (s.values.back?, { s with values := s.values.pop })

/-- Opens a level. -/
def openLevel (s : LevelStack α) : LevelStack α :=
  { s with limits := s.limits.push s.values.size }

/-- Leaves the current level and gives the place where it began. -/
def leaveLevel (s : LevelStack α) : Except Fault (Nat × LevelStack α) :=
  match s.limits.back? with
  | none => .error .rootLevelPopped
  | some start => .ok (start, { s with limits := s.limits.pop })

end LevelStack

end ClauseLearning
