/-
  The policy that keeps the unassigned variables in a priority queue.

  Rule. Variables fall into three groups: the installed ones, where these are preferred; the
  required ones; all others. The first group with an unassigned variable counts, in it the
  variable of the lowest rank, and of several the one with the lowest number. A variable
  without a rank comes after those with one.

  Model. The queue is a heap with every variable as a key; exactly the unassigned ones are
  present. The changes of the assignment say which keys to take out and which to put back.
  The queue is built anew when the groups or ranks have changed or when a variable has come into
  or gone out of the problem.
-/
import ClauseLearning.Heap
import ClauseLearning.Policy

namespace ClauseLearning

/-- The place of a variable in the order of the queue. -/
structure Priority where
  /-- The number of the group. -/
  group : Nat
  /-- The rank within the group. -/
  rank : Nat
  /-- The variable. -/
  var : Var
  deriving DecidableEq, Repr

namespace Priority

/-- Whether `a` is decided on before `b`: by group, then by rank, then by number. -/
def before (a b : Priority) : Bool :=
  a.group < b.group || (a.group == b.group &&
    (a.rank < b.rank || (a.rank == b.rank && a.var < b.var)))

/-- The greater priority is the one decided on earlier. -/
instance : LT Priority := ⟨fun a b => b.before a = true⟩

instance : DecidableLT Priority := fun a b => inferInstanceAs (Decidable (b.before a = true))

end Priority

/-- What the order of the queue depends on. -/
structure Ranking where
  /-- Whether installed variables come first. -/
  preferInstalled : Bool
  /-- The installed variables. -/
  installed : List Var
  /-- The required variables. -/
  required : List Var
  /-- The ranks of the variables that have one. -/
  ranks : NatMap Nat
  deriving Repr

namespace Ranking

/-- The rank that stands for none: the greatest 32-bit word. -/
def noRank : Nat := UInt32.size - 1

/-- The number of the group of a variable. -/
def group (k : Ranking) (v : Var) : Nat :=
  if k.preferInstalled && k.installed.contains v then 0
  else if k.required.contains v then 1
  else 2

/-- The place of a variable in the order of the queue. -/
def priority (k : Ranking) (v : Var) : Priority := ⟨k.group v, (k.ranks.get? v).getD noRank, v⟩

end Ranking

/-- Decides on the unassigned variable that is first in a priority queue. -/
structure RankedQueue where
  /-- What the order depends on. -/
  ranking : Ranking
  /-- The queue. -/
  queue : Heap Priority
  /-- Whether the queue has to be built anew. -/
  stale : Bool
  deriving Repr

namespace RankedQueue

/-- The policy before it was asked. -/
def new (preferInstalled : Bool) : RankedQueue :=
  ⟨⟨preferInstalled, [], [], .empty⟩, .empty, true⟩

/-- The policy with another order. -/
def withRanking (p : RankedQueue) (k : Ranking) : RankedQueue :=
  { p with ranking := k, stale := true }

/-- The policy with other installed variables. -/
def withInstalled (p : RankedQueue) (vs : List Var) : RankedQueue :=
  p.withRanking { p.ranking with installed := vs }

/-- The policy with other ranks; a later one for the same variable overrides an earlier one. -/
def withRanks (p : RankedQueue) (ranks : List (Var × Nat)) : RankedQueue :=
  p.withRanking { p.ranking with ranks := .ofPairs ranks }

/-- The policy with more required variables. -/
def require (p : RankedQueue) (vs : List Var) : RankedQueue :=
  p.withRanking { p.ranking with required := p.ranking.required ++ vs }

/-- Adds a variable to the queue, and takes it out again at once if it is not unassigned. -/
def enlist (k : Ranking) (a : Assignment) (queue : Heap Priority) (v : Var) :
    Except Fault (Heap Priority) := do
  let queue ← queue.grow v (k.priority v)
  if a.isUnassigned v then return queue else queue.delete v

/-- The queue built from nothing. -/
def build (k : Ranking) (a : Assignment) : Except Fault (Heap Priority) :=
  (List.range a.capacity).foldlM (enlist k a) .empty

/-- Takes a change into account. -/
def noteChange (queue : Heap Priority) (ch : Change) : Except Fault (Heap Priority) :=
  if ch.current = .unassigned then queue.restore ch.var else queue.delete ch.var

/-- Whether a variable has come into or gone out of the problem. -/
def reshapes (ch : Change) : Bool := ch.previous == .missing || ch.current == .missing

/-- A queue brought up to date with the assignment, built anew if it is stale. -/
def update (k : Ranking) (stale : Bool) (queue : Heap Priority) (a : Assignment) :
    Except Fault (Heap Priority) :=
  let changes := a.changes
  if stale || changes.any reshapes || queue.size != a.capacity then build k a
  else changes.foldlM noteChange queue

/-- Names the next variable to decide on. -/
def next (p : RankedQueue) (a : Assignment) : Except Fault (Suggestion RankedQueue) :=
  match p with
  | ⟨ranking, queue, stale⟩ => do
    let queue ← update ranking stale queue a
    if queue.present ≠ a.numVariables - a.numAssigned then .error .queueOutOfStep
    else return ⟨queue.peek?.map Prod.fst, true, ⟨ranking, queue, false⟩⟩

end RankedQueue

instance : Policy RankedQueue where
  next p a _ := p.next a
  require := RankedQueue.require

end ClauseLearning
