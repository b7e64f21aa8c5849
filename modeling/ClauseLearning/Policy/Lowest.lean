/-
  The policy that decides on the unassigned variable with the lowest number.
-/
import ClauseLearning.Policy

namespace ClauseLearning

/-- Decides on the lowest unassigned variable, without a memory. -/
structure LowestFirst where
  deriving DecidableEq, Repr, Inhabited

instance : Policy LowestFirst where
  next p a _ := .ok ⟨a.lowestUnassigned?, false, p⟩

end ClauseLearning
