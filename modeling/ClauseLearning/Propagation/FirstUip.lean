/-
  Conflict analysis: the clause of the first unique implication point.

  Model. All literals of the conflicting clause are false. Those of the current decision level
  are resolved away, the newest first, each with the clause that forced it, until a single one
  is left: the first point on the current level through which all chains of reasons pass. The
  learned clause holds its negation and the false literals of earlier levels that were met.

  The walk over the trail is a recursion on its literals, newest first. `pending` counts the
  literals of the current level that were met and not yet passed.
-/
import ClauseLearning.Propagation

namespace ClauseLearning

/-- A clause derived from a conflict. -/
structure Learned where
  /-- The literals of earlier levels, in the order in which they were met. -/
  others : List Lit
  /-- The literal of the current level. -/
  asserting : Lit
  /-- The highest level of the other literals, the root if there are none. -/
  backjump : Nat
  /-- The clauses that were resolved, the conflicting one first. -/
  antecedents : List ClauseRef
  deriving DecidableEq, Repr

/-- The literals of the learned clause; the asserting one is the last. -/
def Learned.literals (d : Learned) : List Lit := d.others ++ [d.asserting]

/-- What the analysis has met so far. -/
structure Analysis where
  /-- The variables met. -/
  seen : NatSet
  /-- How many variables of the current level were met and not yet passed. -/
  pending : Nat
  /-- The literals of earlier levels, the last one met first. -/
  others : List Lit
  /-- The highest level of these literals. -/
  backjump : Nat
  /-- The clauses resolved, the last one first. -/
  antecedents : List ClauseRef
  deriving Repr, DecidableEq

namespace Analysis

/-- Meets a false literal of a resolved clause. -/
def meet (t : Trail) (a : Analysis) (l : Lit) : Except Fault Analysis := do
  if a.seen.contains l.var then return a
  else
    let level := (← t.causeOf l.var).level
    if level = t.level then return { a with seen := a.seen.add l.var, pending := a.pending + 1 }
    else
      return { a with
        seen := a.seen.add l.var
        others := l :: a.others
        backjump := max a.backjump level }

/-- Meets the literals of the clause `r` other than `passed`. -/
def resolve (p : Propagation) (a : Analysis) (r : ClauseRef) (passed : Option Lit) :
    Except Fault Analysis := do
  let c ← p.clauses.read r
  let a := { a with antecedents := r :: a.antecedents }
  (c.literals.filter fun l => some l != passed).foldlM (meet p.trail) a

/-- Walks back over the trail until one literal of the current level is pending. -/
def walk (p : Propagation) (a : Analysis) : List Lit → Except Fault Learned
  | [] => .error .trailExhausted
  | l :: older => do
    if !a.seen.contains l.var then walk p a older
    else if a.pending = 1 then
      return ⟨a.others.reverse, -l, a.backjump, a.antecedents.reverse⟩
    else
      let pending ← difference a.pending 1
      match (← p.trail.causeOf l.var).reason with
      | none => .error (.reasonMissing l)
      | some r =>
        let a ← resolve p { a with pending := pending } r (some l)
        walk p a older

end Analysis

/-- The clause of the first unique implication point for a clause in conflict. -/
def Propagation.firstUip (p : Propagation) (conflict : ClauseRef) : Except Fault Learned := do
  let a ← Analysis.resolve p ⟨.empty, 0, [], 0, []⟩ conflict none
  if a.pending = 0 then .error .noLiteralOnLevel
  else a.walk p p.trail.literals.reverse

end ClauseLearning
