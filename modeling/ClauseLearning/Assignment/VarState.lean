/-
  The state of one variable: not part of the problem, part of it without a value, or part of it
  with a truth value.
-/
namespace ClauseLearning

/-- The state of a variable in an assignment. -/
inductive VarState where
  /-- The variable is not part of the problem. -/
  | missing
  /-- The variable is part of the problem and has no value. -/
  | unassigned
  /-- The variable has the given value. -/
  | assigned (value : Bool)
  deriving DecidableEq, Repr, Inhabited

namespace VarState

/-- Whether the variable is part of the problem. -/
@[inline] def isKnown : VarState → Bool
  | missing => false
  | _ => true

/-- Whether the variable has a value. -/
@[inline] def isAssigned : VarState → Bool
  | assigned _ => true
  | _ => false

/-- Whether the variable is part of the problem and has no value. -/
@[inline] def isUnassigned : VarState → Bool
  | unassigned => true
  | _ => false

/-- The value of the variable, if it has one. -/
@[inline] def value? : VarState → Option Bool
  | assigned b => some b
  | _ => none

/-- The state of a variable of the problem with the given value or none. -/
def ofValue : Option Bool → VarState
  | some b => assigned b
  | none => unassigned

instance : ToString VarState :=
  ⟨fun
    | missing => "missing"
    | unassigned => "unassigned"
    | assigned b => toString b⟩

@[simp] theorem value?_ofValue (b : Option Bool) : (ofValue b).value? = b := by
  cases b <;> rfl

@[simp] theorem ofValue_ne_missing (b : Option Bool) : ofValue b ≠ missing := by
  cases b <;> simp [ofValue]

end VarState

end ClauseLearning
