/-
  What has happened to the variables since somebody last looked.

  Model. The log knows of every variable that was touched since it was cleared, with the state
  the variable had before. A change is a touched variable whose state now differs from that one.
  So a variable that has gone back to its old state is no change, whatever happened to it in
  between.
-/
import ClauseLearning.Assignment.VarState
import ClauseLearning.Lit
import ClauseLearning.NatMap

namespace ClauseLearning

/-- A variable whose state differs from the one it had when the changes were last consumed. -/
structure Change where
  /-- The variable. -/
  var : Var
  /-- Its state then. -/
  previous : VarState
  /-- Its state now. -/
  current : VarState
  deriving DecidableEq, Repr

/-- The variables touched since the log was cleared. -/
structure ChangeLog where
  /-- The state of every touched variable when the log was cleared. -/
  earlier : NatMap VarState
  /-- The touched variables, each once, the one touched last first. -/
  touched : List Var
  deriving Repr, DecidableEq

namespace ChangeLog

/-- The log just after it was cleared. -/
def empty : ChangeLog := ⟨.empty, []⟩

instance : Inhabited ChangeLog := ⟨empty⟩

instance : EmptyCollection ChangeLog := ⟨empty⟩

/-- Takes note that a variable with the given state is touched. -/
def note (c : ChangeLog) (v : Var) (previous : VarState) : ChangeLog :=
  match c with
  | ⟨earlier, touched⟩ =>
    if earlier.contains v then ⟨earlier, touched⟩
    else ⟨earlier.insert v previous, v :: touched⟩

/-- The change of a variable that has the state `current` now, if it is one. -/
def change? (c : ChangeLog) (v : Var) (current : VarState) : Option Change :=
  match c.earlier.get? v with
  | none => none
  | some previous => if previous = current then none else some ⟨v, previous, current⟩

/-- The changes, in increasing order of the variables. -/
def changes (c : ChangeLog) (state : Var → VarState) : List Change :=
  (c.touched.mergeSort fun v w => v ≤ w).filterMap fun v => c.change? v (state v)

/-- Whether there is a change. -/
def hasChanges (c : ChangeLog) (state : Var → VarState) : Bool :=
  c.touched.any fun v => (c.change? v (state v)).isSome

end ChangeLog

end ClauseLearning
