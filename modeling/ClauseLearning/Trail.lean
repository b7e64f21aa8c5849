/-
  The trail: the assigned literals in the order in which they became true.

  Model. A trail is an assignment together with the stack of its literals, split into decision
  levels, and for every variable the level on which it got its value and the clause that forced
  it. A decision is forced by no clause. A literal that is not yet assigned is put on the trail
  by `enqueue`; `cancelUntil` takes back everything above a level.
-/
import ClauseLearning.Assignment
import ClauseLearning.Clause
import ClauseLearning.LevelStack

namespace ClauseLearning

/-- When and why a variable got its value. -/
structure Cause where
  /-- The decision level. -/
  level : Nat
  /-- The clause that forced the value, if one did. -/
  reason : Option ClauseRef
  deriving DecidableEq, Repr

/-- The cause kept for a variable without a value. -/
def Cause.none : Cause := ⟨0, Option.none⟩

/-- An assignment with the history of its values. -/
structure Trail where
  /-- The states of the variables. -/
  assignment : Assignment
  /-- The cause of every value, by variable. -/
  causes : Table Cause
  /-- The true literals by level, oldest first. -/
  entries : LevelStack Lit
  deriving Repr, DecidableEq

namespace Trail

/-- The trail without variables. -/
def empty : Trail := ⟨.empty, .empty, .empty⟩

instance : Inhabited Trail := ⟨empty⟩

/-- The current decision level. -/
def level (t : Trail) : Nat := t.entries.level

/-- Whether no decision level is open. -/
def atRoot (t : Trail) : Bool := t.level == 0

/-- The number of literals on the trail. -/
def length (t : Trail) : Nat := t.entries.size

/-- The literal at a place of the trail, counted from the oldest. -/
def entry? (t : Trail) (i : Nat) : Option Lit := t.entries.get? i

/-- The literals, oldest first. -/
def literals (t : Trail) : List Lit := t.entries.toList

/-- The truth value of a literal, if its variable has one. -/
@[inline] def litValue? (t : Trail) (l : Lit) : Option Bool := t.assignment.litValue? l

/-- Whether the literal is true. -/
def isTrue (t : Trail) (l : Lit) : Bool := t.assignment.isTrue l

/-- Whether the literal is false. -/
def isFalse (t : Trail) (l : Lit) : Bool := t.assignment.isFalse l

/-- Whether the variable of the literal has no value. -/
def isOpen (t : Trail) (l : Lit) : Bool := (t.litValue? l).isNone

/-- The cause of a variable that must have room for one. -/
def causeOf (t : Trail) (v : Var) : Except Fault Cause := t.causes.read v

/-- The decision level kept for a variable, the root for one without room. -/
def levelOf (t : Trail) (v : Var) : Nat := ((t.causes.get? v).getD Cause.none).level

/-- Whether a decision level is kept for a variable. -/
def hasLevel (t : Trail) (v : Var) : Bool := v < t.causes.size

/-- Makes a variable part of the problem. -/
def register (t : Trail) (v : Var) : Except Fault Trail :=
  match t with
  | ⟨assignment, causes, entries⟩ => do
    let assignment ← if assignment.contains v then .ok assignment else assignment.set v none
    return ⟨assignment, causes.grow v Cause.none, entries⟩

/-- Gives a literal without a value the value true on the current level. -/
def assign (t : Trail) (l : Lit) (reason : Option ClauseRef) : Except Fault Trail := do
  match ← t.register l.var with
  | ⟨assignment, causes, entries⟩ =>
    let assignment ← assignment.set l.var (some l.positive)
    let causes ← causes.set l.var ⟨entries.level, reason⟩
    return ⟨assignment, causes, entries.push l⟩

/-- Makes a literal true for the given reason, unless it has a value; says whether it is true
    now. -/
def enqueue (t : Trail) (l : Lit) (reason : Option ClauseRef) : Except Fault (Bool × Trail) :=
  match t.litValue? l with
  | some b => .ok (b, t)
  | none => do return (true, ← t.assign l reason)

/-- Opens a decision level. -/
def openLevel (t : Trail) : Trail :=
  match t with
  | ⟨assignment, causes, entries⟩ => ⟨assignment, causes, entries.openLevel⟩

/-- Takes the newest literal off the trail, and its value with it. -/
def undo (t : Trail) : Except Fault Trail :=
  match t with
  | ⟨assignment, causes, entries⟩ =>
    match entries.pop with
    | (none, _) => .error .nothingToUndo
    | (some l, entries) => do
      let assignment ← assignment.set l.var none
      let causes ← causes.set l.var Cause.none
      return ⟨assignment, causes, entries⟩

/-- Takes the newest `n` literals off the trail. -/
def undoMany : Nat → Trail → Except Fault Trail
  | 0, t => .ok t
  | n + 1, t => do undoMany n (← t.undo)

/-- Leaves the current level and takes back what was assigned on it. -/
def cancel (t : Trail) : Except Fault Trail :=
  match t with
  | ⟨assignment, causes, entries⟩ => do
    let (start, entries) ← entries.leaveLevel
    undoMany (entries.size - start) ⟨assignment, causes, entries⟩

/-- Leaves `n` levels. -/
def cancelMany : Nat → Trail → Except Fault Trail
  | 0, t => .ok t
  | n + 1, t => do cancelMany n (← t.cancel)

/-- Goes back to a decision level that is not above the current one. -/
def cancelUntil (t : Trail) (k : Nat) : Except Fault Trail :=
  if k ≤ t.level then cancelMany (t.level - k) t else .error .levelNotReached

/-- Begins a new list of changes of the assignment. -/
def consume (t : Trail) : Trail :=
  match t with
  | ⟨assignment, causes, entries⟩ => ⟨assignment.consume, causes, entries⟩

end Trail

end ClauseLearning
