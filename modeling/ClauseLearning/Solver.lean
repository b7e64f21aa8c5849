/-
  The solver between searches: its state, and adding clauses.

  Model. A solver holds the state of propagation, the learned clauses in the order in which they
  were learned, the statistics, and its status. Clauses come in at the root level. A clause whose
  literals are all false there makes the solver infeasible, with that clause as the conflict;
  from then on every clause is refused and every search ends at once.

  The status follows the search: it starts, meets conflicts, and ends with a solution, with the
  problem found infeasible, or without an answer. A change the status does not allow is
  `Fault.statusOutOfOrder`.
-/
import ClauseLearning.Propagation
import ClauseLearning.Statistics

namespace ClauseLearning

/-- Where a solver stands. -/
inductive Status where
  /-- No search was started yet. -/
  | ready
  /-- A search is on its way. -/
  | searching
  /-- The search has met a clause that is false. -/
  | conflicting (c : ClauseRef)
  /-- The last search found a solution. -/
  | solved
  /-- The last search ended without an answer. -/
  | stopped
  /-- The clause is false at the root: there is no solution. -/
  | infeasible (c : ClauseRef)
  deriving DecidableEq, Repr, Inhabited

namespace Status

/-- The clause that is false at the root, if the problem is known to have no solution. -/
def infeasible? : Status → Option ClauseRef
  | infeasible c => some c
  | _ => none

/-- Starts a search. -/
def start : Status → Except Fault Status
  | infeasible _ => .error .statusOutOfOrder
  | _ => .ok searching

/-- Meets a false clause during a search. -/
def meet (c : ClauseRef) : Status → Except Fault Status
  | searching => .ok (conflicting c)
  | _ => .error .statusOutOfOrder

/-- Finds that there is no solution. -/
def fail (c : ClauseRef) : Status → Except Fault Status
  | infeasible _ => .error .statusOutOfOrder
  | _ => .ok (infeasible c)

/-- Finds a solution. -/
def finish : Status → Except Fault Status
  | conflicting _ => .error .statusOutOfOrder
  | _ => .ok solved

/-- Gives up. -/
def stop : Status → Except Fault Status
  | ready => .ok stopped
  | searching => .ok stopped
  | _ => .error .statusOutOfOrder

end Status

/-- Clauses, assignment and history of one problem. -/
structure Solver where
  /-- Where the solver stands. -/
  status : Status
  /-- Clauses, trail and watch lists. -/
  propagation : Propagation
  /-- The learned clauses, in the order in which they were learned. -/
  learned : Array ClauseRef
  /-- What was counted. -/
  statistics : Statistics
  /-- Whether clauses that are always true are left out. -/
  skipTautologies : Bool
  deriving Repr, DecidableEq

/-- What became of a clause that was added. -/
inductive Added where
  /-- The clause is kept under the given reference. -/
  | kept (r : ClauseRef)
  /-- The clause is always true and was left out. -/
  | skipped (c : Clause)
  /-- The clause is kept, and it is false at the root. -/
  | infeasible (r : ClauseRef)
  /-- The clause was refused, since the problem has no solution already. -/
  | refused
  deriving DecidableEq, Repr

/-- Why a clause could not be added to a problem with a solution. -/
inductive AddError where
  /-- The clause is false at the root. -/
  | infeasibleClause
  /-- The problem had no solution before. -/
  | infeasibleState
  deriving DecidableEq, Repr

/-- The text of the error. -/
def AddError.message : AddError → String
  | .infeasibleClause => "Adding the clause failed because it is infeasible at the root"
  | .infeasibleState =>
    "Adding the clause failed because the solver is in an infeasible state"

/-- The error in what became of a clause, if it is one. -/
def Added.error? : Added → Option AddError
  | infeasible _ => some .infeasibleClause
  | refused => some .infeasibleState
  | _ => none

namespace Solver

/-- The solver without variables and clauses. -/
def new (skipTautologies : Bool) : Solver := ⟨.ready, .empty, #[], .zero, skipTautologies⟩

instance : Inhabited Solver := ⟨new true⟩

/-- The trail. -/
def trail (s : Solver) : Trail := s.propagation.trail

/-- The clauses. -/
def clauses (s : Solver) : ClauseStore := s.propagation.clauses

/-- The assignment. -/
def assignment (s : Solver) : Assignment := s.trail.assignment

/-- The current decision level. -/
def level (s : Solver) : Nat := s.trail.level

/-- Makes a variable part of the problem. -/
def register (s : Solver) (v : Var) : Except Fault Solver :=
  match s with
  | ⟨status, propagation, learned, statistics, skip⟩ => do
    if Lit.varBound ≤ v then .error .overflow
    else
      let propagation ← propagation.register v
      return ⟨status, propagation, learned, statistics, skip⟩

/-- Makes the variables of a clause part of the problem. -/
def registerAll (s : Solver) (ls : List Lit) : Except Fault Solver :=
  ls.foldlM (fun s l => s.register l.var) s

/-- Keeps a clause and takes it into account. -/
def keep (s : Solver) (c : Clause) : Except Fault (Added × Solver) :=
  match s with
  | ⟨status, propagation, learned, statistics, skip⟩ => do
    let (r, propagation) := propagation.keep c
    let (conflict, propagation) ← propagation.addKept r
    match conflict with
    | none => return (.kept r, ⟨status, propagation, learned, statistics, skip⟩)
    | some f =>
      let status ← status.fail f
      return (.infeasible f, ⟨status, propagation, learned, statistics, skip⟩)

/-- Adds a clause with the rule it comes from, and makes its variables part of the problem. -/
def add (s : Solver) (ls : List Lit) (provenance : Option String) :
    Except Fault (Added × Solver) :=
  if s.status.infeasible?.isSome then .ok (.refused, s)
  else if !s.trail.atRoot then .error .clauseAboveRoot
  else do
    let c := Clause.ofList ls false provenance
    let s ← s.registerAll c.literals
    if s.skipTautologies && c.isTautology then return (.skipped c, s) else s.keep c

/-- The solver with the given clauses; those that make it infeasible, and those after, are
    passed over. -/
def ofRules (rules : List (List Lit × Option String)) : Except Fault Solver :=
  rules.foldlM (fun s (ls, provenance) => do return (← s.add ls provenance).2) (new true)

/-- The literals of the learned clauses, in the order in which they were learned. -/
def learnedClauses (s : Solver) : List (List Lit) :=
  s.learned.toList.filterMap fun r => (s.clauses.get? r).map Clause.literals

/-- Opens a decision level on which a literal without a value is true. -/
def assume (s : Solver) (l : Lit) : Except Fault Solver :=
  match s with
  | ⟨status, ⟨trail, clauses, watches, next⟩, learned, statistics, skip⟩ => do
    if !trail.isOpen l then .error .assumedAssigned
    else
      let (_, trail) ← trail.openLevel.enqueue l none
      return ⟨status, ⟨trail, clauses, watches, next⟩, learned, statistics, skip⟩

/-- Goes back to a decision level that is not above the current one. -/
def cancelUntil (s : Solver) (k : Nat) : Except Fault Solver :=
  match s with
  | ⟨status, propagation, learned, statistics, skip⟩ => do
    let propagation ← propagation.cancelUntil k
    return ⟨status, propagation, learned, statistics, skip⟩

end Solver

end ClauseLearning
