/-
  Conflicts: learning from them above the root, and refuting the problem at the root.

  Rule. The clause of the first unique implication point is kept with its asserting literal in
  front and, behind it, a literal of the highest level among the others, so that both watched
  literals are right after going back to that level. There the asserting literal is forced.
-/
import ClauseLearning.Propagation.FirstUip
import ClauseLearning.Refutation
import ClauseLearning.Solver

namespace ClauseLearning

/-- The list with its first element of the greatest key in front; the element that was in front
    takes the place left behind. -/
def promoteMax {α : Type} (key : α → Nat) (xs : List α) : List α :=
  let top := xs.foldl (fun m x => max m (key x)) 0
  match xs.takeWhile (fun x => key x < top), xs.dropWhile (fun x => key x < top) with
  | x :: before, y :: behind => y :: before ++ x :: behind
  | _, _ => xs

namespace Solver

/-- The literals of a learned clause in the order in which they are kept. -/
def watchOrder (t : Trail) (d : Learned) : List Lit :=
  d.asserting :: promoteMax (fun l => t.levelOf l.var) (d.others.rotateLeft 1)

/-- Keeps a learned clause and makes its asserting literal true. The levels of the others are
    read, so the trail must have room for one. -/
def record (s : Solver) (d : Learned) : Except Fault Solver :=
  match s with
  | ⟨status, propagation, learned, statistics, skip⟩ => do
    if !d.others.all fun l => propagation.trail.hasLevel l.var then .error .outOfRange
    else
      let literals := watchOrder propagation.trail d
      let (r, propagation) ← propagation.learn (Clause.learnedFrom literals d.antecedents)
      let (agrees, propagation) ← propagation.enqueue d.asserting (some r)
      if agrees then return ⟨status, propagation, learned.push r, statistics, skip⟩
      else .error (.assertingFalse d.asserting)

/-- The statistics after a clause was learned on the given level. -/
def countLearned (st : Statistics) (level : Nat) (d : Learned) : Except Fault Statistics := do
  let learnedLength ← st.learnedLength.add d.literals.length
  let backtrack ← st.backtrack.add (← difference level d.backjump)
  return { st with
    learnedLength := learnedLength
    backtrack := backtrack
    unitClauses := if d.others.isEmpty then st.unitClauses + 1 else st.unitClauses }

/-- Learns from a clause in conflict above the root. -/
def resolveConflict (s : Solver) (conflict : ClauseRef) : Except Fault Solver := do
  let d ← s.propagation.firstUip conflict
  let statistics ← countLearned s.statistics s.level d
  ({ ← s.cancelUntil d.backjump with statistics := statistics }).record d

/-- The clause learned from a clause that is false at the root, unless that one is empty. -/
def rootClause? (s : Solver) (conflict : ClauseRef) : Except Fault (Option Clause) := do
  if (← s.clauses.read conflict).isEmpty then return none
  else
    let d ← s.propagation.firstUip conflict
    return some (Clause.learnedFrom d.literals d.antecedents)

/-- The refutation of a problem with a clause that is false at the root. -/
def refute (s : Solver) (conflict : ClauseRef) : Except Fault Refutation := do
  if !s.trail.atRoot then .error .refutationAboveRoot
  else
    let learned ← s.rootClause? conflict
    let implied ← s.trail.literals.mapM fun l => do return (l, (← s.trail.causeOf l.var).reason)
    Refutation.new s.clauses implied conflict learned

end Solver

end ClauseLearning
