/-
  The problem of a DIMACS file, as a solver.

  Rule. The variables are the declared ones, whether they occur or not, and each clause is
  labelled with its place in the file, counted from 1.
-/
import ClauseLearning.Dimacs.Reader
import ClauseLearning.Solver

namespace ClauseLearning.Dimacs

/-- The label of the clause at a place, counted from 1. -/
def label (k : Nat) : String := s!"input clause #{k}"

/-- The literal of a signed number that stands in a clause. -/
def litOf (n : Int) : Except Fault Lit :=
  match Lit.ofInt n with
  | .ok l => .ok l
  | .error _ => .error .overflow

/-- The solver with the variables from 1 to `n`. -/
def declare (skipTautologies : Bool) (n : Nat) : Except Fault Solver :=
  if Lit.varBound ≤ n then .error .overflow
  else (List.range n).foldlM (fun s v => s.register (v + 1)) (Solver.new skipTautologies)

/-- A solver that takes in clauses, and what became of those taken in so far. -/
structure Intake where
  /-- What became of each clause, the last one first. -/
  added : List Added
  /-- The solver, or the fault that ended the intake. -/
  solver : Except Fault Solver

/-- Takes in clauses; the next one has the place `k`. -/
def takeIn (s : Solver) (added : List Added) (k : Nat) : List (List Int) → Intake
  | [] => ⟨added, .ok s⟩
  | c :: cs =>
    match (do s.add (← c.mapM litOf) (some (label k)) : Except Fault (Added × Solver)) with
    | .error f => ⟨added, .error f⟩
    | .ok (outcome, s) => takeIn s (outcome :: added) (k + 1) cs

/-- Takes in what was read of a file. -/
def Reading.intake (r : Reading) (skipTautologies : Bool) : Intake :=
  match declare skipTautologies (r.numVariables?.getD 0) with
  | .error f => ⟨[], .error f⟩
  | .ok s => takeIn s [] 1 r.clauses

end ClauseLearning.Dimacs
