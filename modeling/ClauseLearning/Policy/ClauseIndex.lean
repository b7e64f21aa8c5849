/-
  Which clauses are open, that is, without a true literal, and which variables occur in them.

  Model. The index has a mark for every clause it has taken in, and for every variable the
  clauses in which it occurs. A clause counts as open from when it is taken in until the index
  looks at it again, which it does for the clauses of a variable whose state has changed. So the
  marks lag behind the assignment until the changes are noted.

  The candidates are found from the variables and not from the clauses: a variable is one if it
  is unassigned and one of its clauses is open. As an open clause is often among the first, this
  looks at few of them.
-/
import ClauseLearning.Assignment
import ClauseLearning.Clause.Store

namespace ClauseLearning

/-- Clauses by variable, and which of them count as open. -/
structure ClauseIndex where
  /-- The variables that occur in a clause, each once. -/
  occurring : List Var
  /-- For every variable the clauses in which it occurs. -/
  occurrences : Table (Array ClauseRef)
  /-- For every clause whether it counts as open. -/
  openTable : Table Bool
  deriving Repr

namespace ClauseIndex

/-- The index before it has taken in a clause. -/
def empty : ClauseIndex := ⟨[], .empty, .empty⟩

instance : Inhabited ClauseIndex := ⟨empty⟩

instance : EmptyCollection ClauseIndex := ⟨empty⟩

/-- How many clauses were taken in. -/
def size (i : ClauseIndex) : Nat := i.openTable.size

/-- Whether the clause counts as open. -/
@[inline] def isOpen (i : ClauseIndex) (r : ClauseRef) : Bool := (i.openTable.get? r).getD false

/-- The clauses in which a variable occurs. -/
@[inline] def clausesOf (i : ClauseIndex) (v : Var) : Array ClauseRef :=
  (i.occurrences.get? v).getD #[]

/-- Whether a variable occurs in a clause that counts as open. -/
def occursOpen (i : ClauseIndex) (v : Var) : Bool := (i.clausesOf v).any i.isOpen

/-- The unassigned variables that occur in a clause that counts as open. -/
def candidates (i : ClauseIndex) (a : Assignment) : List Var :=
  i.occurring.filter fun v => a.isUnassigned v && i.occursOpen v

/-! ## Taking in clauses -/

/-- Takes note that a variable occurs in a clause. -/
def addOccurrence (i : ClauseIndex) (r : ClauseRef) (v : Var) : Except Fault ClauseIndex :=
  let isNew := (i.clausesOf v).isEmpty
  match i with
  | ⟨occurring, occurrences, openTable⟩ => do
    let occurring := if isNew then v :: occurring else occurring
    let occurrences ← (occurrences.grow v #[]).update v fun refs => refs.push r
    return ⟨occurring, occurrences, openTable⟩

/-- Counts the next clause as open. -/
def addOpen (i : ClauseIndex) : ClauseIndex :=
  match i with
  | ⟨occurring, occurrences, openTable⟩ => ⟨occurring, occurrences, openTable.push true⟩

/-- Takes in the next clause. -/
def add (i : ClauseIndex) (c : Clause) : Except Fault ClauseIndex := do
  let r := i.size
  return (← c.literals.foldlM (fun i l => i.addOccurrence r l.var) i).addOpen

/-- Takes in the clauses of the store that come after those taken in before. -/
def addNew (i : ClauseIndex) (store : ClauseStore) : Except Fault ClauseIndex :=
  (List.range' i.size (store.size - i.size)).foldlM (fun i r => do i.add (← store.read r)) i

/-! ## Noting changes -/

/-- Looks again whether a clause is open. -/
def lookAgain (a : Assignment) (store : ClauseStore) (openTable : Table Bool) (r : ClauseRef) :
    Except Fault (Table Bool) := do
  openTable.set r (!a.satisfies (← store.read r).literals)

/-- Looks again at the clauses of a variable. -/
def note (i : ClauseIndex) (a : Assignment) (store : ClauseStore) (v : Var) :
    Except Fault ClauseIndex :=
  match i with
  | ⟨occurring, occurrences, openTable⟩ => do
    let refs := (occurrences.get? v).getD #[]
    return ⟨occurring, occurrences, ← refs.foldlM (lookAgain a store) openTable⟩

/-- Looks again at the clauses of the variables that have changed. -/
def noteChanges (i : ClauseIndex) (a : Assignment) (store : ClauseStore) :
    Except Fault ClauseIndex :=
  a.changes.foldlM (fun i ch => i.note a store ch.var) i

end ClauseIndex

end ClauseLearning
