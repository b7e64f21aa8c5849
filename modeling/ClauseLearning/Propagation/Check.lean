/-
  The watch invariant, checked.

  Rule. Of a clause that is watched at all, each of the first two literals has exactly one
  watcher, and if one of the two is false the other one is true.
-/
import ClauseLearning.Propagation

namespace ClauseLearning.Propagation

/-- Whether a watch list has a watcher of the clause. -/
def isWatched (p : Propagation) (r : ClauseRef) : Bool :=
  p.watches.toList.any fun list => list.any fun w => w.clause == r

/-- Checks the watch of the clause through `watched` beside `other`. -/
def checkWatch (p : Propagation) (r : ClauseRef) (c : Clause) (watched other : Lit) :
    Except Fault Unit := do
  let list ← p.watches.read (-watched).code
  if list.countP (fun w => w.clause == r) ≠ 1 then .error .watchMiscounted
  else if p.trail.isFalse watched && !p.trail.isTrue other then
    .error (.falseWatch c.literals watched other)
  else return ()

/-- Checks the watches of one clause. -/
def checkClause (p : Propagation) (r : ClauseRef) : Except Fault Unit := do
  let c ← p.clauses.read r
  match c.literals with
  | a :: b :: _ =>
    if p.isWatched r then
      p.checkWatch r c a b
      p.checkWatch r c b a
    else return ()
  | _ => return ()

/-- Checks the watches of all clauses. -/
def check (p : Propagation) : Except Fault Unit := p.clauses.refs.forM p.checkClause

end ClauseLearning.Propagation
