/-
  Clauses: disjunctions of literals without repetitions.

  Model. What a clause says never changes after it is made; only the order of its literals does,
  since the first two are the watched ones. A learned clause names the clauses it was resolved
  from; an input clause may carry a text that says which rule it comes from. The text is never
  looked at by the search.

  `Clause.nonFalseFirst` is the reordering a clause undergoes when it is added: the literals that
  are not false move to the front in their order, each changing places with the false literal
  that has waited longest.
-/
import ClauseLearning.Fault
import ClauseLearning.NatMap

namespace ClauseLearning

/-- The number under which a clause is kept: how many clauses were kept before it. It is a natural
    number, and agrees with a reference of 32 bits as long as fewer than `2 ^ 32` clauses are
    kept. -/
abbrev ClauseRef := Nat

/-- The way a clause reference is written. -/
def ClauseRef.text (r : ClauseRef) : String := "c" ++ toString r

/-- A disjunction of literals and where it comes from. -/
structure Clause where
  /-- The literals, each once; the first two are the watched ones. -/
  literals : List Lit
  /-- Whether the clause was derived rather than given. -/
  learned : Bool
  /-- The rule an input clause comes from. -/
  provenance : Option String
  /-- The clauses a learned clause was resolved from. -/
  antecedents : List ClauseRef
  deriving DecidableEq, Repr, Inhabited

namespace Clause

/-- The clause of the given literals, where a repeated literal counts at its first place. -/
def ofList (ls : List Lit) (learned : Bool) (provenance : Option String) : Clause :=
  ⟨firsts Lit.code ls, learned, provenance, []⟩

/-- The learned clause of the given literals, resolved from `antecedents`. -/
def learnedFrom (ls : List Lit) (antecedents : List ClauseRef) : Clause :=
  ⟨firsts Lit.code ls, true, none, antecedents⟩

/-- The number of literals. -/
def length (c : Clause) : Nat := c.literals.length

/-- Whether the clause has no literal. -/
def isEmpty (c : Clause) : Bool := c.literals.isEmpty

/-- Whether the clause has one literal. -/
def isUnit (c : Clause) : Bool := c.length == 1

/-- Whether the clause holds a literal and its negation. -/
def isTautology (c : Clause) : Bool :=
  let codes := NatSet.ofList (c.literals.map Lit.code)
  c.literals.any fun l => codes.contains (-l).code

/-- The negations of all literals but `excluded`: what forces `excluded` when they hold. -/
def reasonFor (c : Clause) (excluded : Option Lit) : List Lit :=
  (c.literals.filter fun l => some l != excluded).map fun l => -l

/-- The literal at a place. -/
def read (c : Clause) (i : Nat) : Except Fault Lit :=
  match c.literals[i]? with
  | some l => .ok l
  | none => .error .outOfRange

/-- Exchanges the literals at two places. -/
def swap (c : Clause) (i j : Nat) : Except Fault Clause :=
  match c.literals[i]?, c.literals[j]? with
  | some l, some m => .ok { c with literals := (c.literals.set i m).set j l }
  | _, _ => .error .outOfRange

/-- The literals passed in the reordering of a clause. -/
structure Passed where
  /-- Those that are not false, the last one first. -/
  front : List Lit
  /-- The false ones that wait, up to some place. -/
  waiting : List Lit
  /-- The false ones that wait behind that place, the last one first. -/
  behind : List Lit

/-- Passes a literal: a false one waits behind the others; one that is not false takes the place
    of the one that has waited longest, which moves to the place left behind. -/
def Passed.pass (isFalse : Lit → Bool) (p : Passed) (l : Lit) : Passed :=
  if isFalse l then ⟨p.front, p.waiting, l :: p.behind⟩
  else
    match p.waiting with
    | m :: waiting => ⟨l :: p.front, waiting, m :: p.behind⟩
    | [] =>
      match p.behind.reverse with
      | m :: waiting => ⟨l :: p.front, waiting, [m]⟩
      | [] => ⟨l :: p.front, [], []⟩

/-- The literals in their new order. -/
def Passed.toList (p : Passed) : List Lit := p.front.reverse ++ (p.waiting ++ p.behind.reverse)

/-- The literals with those that are not false in front, in their order. -/
def nonFalseFirst (isFalse : Lit → Bool) (ls : List Lit) : List Lit :=
  (ls.foldl (Passed.pass isFalse) ⟨[], [], []⟩).toList

instance : ToString Clause := ⟨fun c => Lit.writeList c.literals⟩

/-- The text that stands for the clause in an explanation: its rule, or else its literals. -/
def describe (c : Clause) : String :=
  match c.provenance with
  | some text => text
  | none => toString c

end Clause

end ClauseLearning
