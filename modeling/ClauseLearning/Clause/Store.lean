/-
  The store of clauses, given and learned.

  Model. Clauses are kept in the order in which they come and none is ever dropped, so a
  reference stays valid. All that changes in a kept clause is the order of its literals.
-/
import ClauseLearning.Clause
import ClauseLearning.Table

namespace ClauseLearning

/-- The clauses kept so far. -/
structure ClauseStore where
  /-- The clauses by reference. -/
  clauses : Table Clause
  /-- How many of them are learned. -/
  numLearned : Nat
  deriving Repr, DecidableEq

namespace ClauseStore

/-- The store without clauses. -/
def empty : ClauseStore := ⟨.empty, 0⟩

instance : Inhabited ClauseStore := ⟨empty⟩

instance : EmptyCollection ClauseStore := ⟨empty⟩

/-- The number of clauses. -/
def size (s : ClauseStore) : Nat := s.clauses.size

/-- Keeps a clause and gives its reference. -/
def add (s : ClauseStore) (c : Clause) : ClauseRef × ClauseStore :=
  (s.size, ⟨s.clauses.push c, if c.learned then s.numLearned + 1 else s.numLearned⟩)

/-- The clause of a reference, if there is one. -/
def get? (s : ClauseStore) (r : ClauseRef) : Option Clause := s.clauses.get? r

/-- The clause of a reference that must be valid. -/
def read (s : ClauseStore) (r : ClauseRef) : Except Fault Clause := s.clauses.read r

/-- Puts the literals of a clause in the order `ls`, which must be an order of them. -/
def arrange (s : ClauseStore) (r : ClauseRef) (ls : List Lit) : Except Fault ClauseStore := do
  let clauses ← s.clauses.update r fun c => { c with literals := ls }
  return { s with clauses := clauses }

/-- Exchanges two literals of a clause. -/
def swap (s : ClauseStore) (r : ClauseRef) (i j : Nat) : Except Fault ClauseStore := do
  let c ← s.read r
  s.arrange r (← c.swap i j).literals

/-- The references, in the order in which the clauses came. -/
def refs (s : ClauseStore) : List ClauseRef := s.clauses.keys

/-- The clauses, in the order in which they came. -/
def toList (s : ClauseStore) : List Clause := s.clauses.toList

end ClauseStore

end ClauseLearning
