/-
  Refutations: why a problem has no solution.

  Model. A refutation keeps the clauses of the solver, the reasons of the literals that were true
  at the root, and the clause that is false there. It is a value of its own and outlives the
  solver.

  Rule. What a clause rests on is found by following links: a learned clause leads to the clauses
  it was resolved from, and every clause leads, for each of its literals, to the reason why that
  literal is false. The requirements are the given clauses among those reached.
-/
import ClauseLearning.Clause.Store

namespace ClauseLearning

/-- The clauses, reasons and the false clause of a problem without a solution. -/
structure Refutation where
  /-- The clauses, the one learned from the conflict included. -/
  clauses : ClauseStore
  /-- For the code of a literal that was true at the root, the clause that forced it. -/
  reasons : Table (Option ClauseRef)
  /-- The clause that is false at the root. -/
  conflicting : ClauseRef
  /-- The clause learned from the conflict, unless the conflicting clause is empty. -/
  learned? : Option ClauseRef
  deriving Repr, DecidableEq

namespace Refutation

/-- Enters the reason of a literal. -/
def enterReason (t : Table (Option ClauseRef)) (implied : Lit × Option ClauseRef) :
    Except Fault (Table (Option ClauseRef)) :=
  (t.grow implied.1.code none).set implied.1.code implied.2

/-- The refutation with the given clauses and reasons; a clause learned from the conflict is kept
    with the others. -/
def new (clauses : ClauseStore) (implied : List (Lit × Option ClauseRef))
    (conflicting : ClauseRef) (learned : Option Clause) : Except Fault Refutation := do
  let reasons ← implied.foldlM enterReason .empty
  match learned with
  | none => return ⟨clauses, reasons, conflicting, none⟩
  | some c =>
    let (r, clauses) := clauses.add c
    return ⟨clauses, reasons, conflicting, some r⟩

/-- The clause that is false at the root. -/
def conflictingClause (w : Refutation) : Except Fault Clause := w.clauses.read w.conflicting

/-- The clause learned from the conflict, if there is one. -/
def learnedClause? (w : Refutation) : Except Fault (Option Clause) :=
  match w.learned? with
  | none => .ok none
  | some r => do return some (← w.clauses.read r)

/-- The clause that made a literal false at the root, if one did. -/
def reasonAgainst? (w : Refutation) (l : Lit) : Option ClauseRef :=
  (w.reasons.get? (-l).code).join

/-- The clauses to which a clause leads. -/
def links (w : Refutation) (c : Clause) : List ClauseRef :=
  (if c.learned then c.antecedents else []) ++ c.literals.filterMap w.reasonAgainst?

/-- Marks every clause that is reached from the clauses on the stack without passing through a
    marked one. Each round marks a clause or shortens the stack. -/
def reach (w : Refutation) (marked : Array Bool) (stack : List ClauseRef) :
    Except Fault (Array Bool) :=
  match stack with
  | [] => .ok marked
  | r :: rest =>
    match _hm : marked[r]? with
    | none => .error .outOfRange
    | some true => reach w marked rest
    | some false =>
      match w.clauses.get? r with
      | none => .error .outOfRange
      | some c => reach w (marked.setIfInBounds r true) (w.links c ++ rest)
termination_by (marked.count false, stack.length)
decreasing_by
  · simp_wf
    right
    omega
  · simp_wf
    left
    obtain ⟨hr, hv⟩ := Array.getElem?_eq_some_iff.1 _hm
    have pos : 0 < marked.count false := Array.count_pos_iff.2 (hv ▸ Array.getElem_mem hr)
    have less : (marked.setIfInBounds r true).count false = marked.count false - 1 := by
      rw [Array.setIfInBounds, dif_pos hr, Array.count_set hr, hv]; rfl
    exact less ▸ Nat.sub_lt pos Nat.one_pos

/-- The given clauses on which a clause rests, in increasing order. -/
def requirements (w : Refutation) (r : ClauseRef) : Except Fault (List ClauseRef) := do
  let marked ← w.reach (Array.replicate w.clauses.size false) [r]
  return w.clauses.refs.filter fun r =>
    marked[r]? == some true && (w.clauses.get? r).any fun c => !c.learned

/-- The given clauses on which the conflict rests, in increasing order. -/
def conflictRequirements (w : Refutation) : Except Fault (List ClauseRef) :=
  w.requirements w.conflicting

/-- The lines of the explanation: a heading, then the rule of every requirement. -/
def lines (w : Refutation) : Except Fault (List String) := do
  let rules ← (← w.conflictRequirements).mapM fun r => do return (← w.clauses.read r).describe
  return "Conflicting requirements:" :: rules

/-- The text of the explanation. -/
def text (w : Refutation) : Except Fault String := do return "\n".intercalate (← w.lines)

end Refutation

end ClauseLearning
