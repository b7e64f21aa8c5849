/-
  Budgets: when a search is to give up.

  Model. A search asks its termination condition once per round whether to stop, and tells it of
  every decision. Any type with these two operations will do (`Termination`); budgets are the
  conditions of the library. A budget of decisions is used up after that many; a budget of time
  is used up when the time that has passed, which is part of the budget, reaches its limit. There
  is no clock that would let time pass. Two budgets together are used up when either is.
-/
namespace ClauseLearning

/-- A condition under which a search gives up. -/
class Termination (β : Type) where
  /-- Whether to stop, with the condition as it goes on. -/
  poll : β → Bool × β
  /-- The condition after one more decision. -/
  spend : β → β

/-- What a search may spend. -/
inductive Budget where
  /-- No bound. -/
  | unlimited
  /-- A number of decisions, and how many of them have been made. -/
  | decisions (limit made : Nat)
  /-- A number of milliseconds, and how many of them have passed. Nothing advances `passed`, so a
      fresh limit of time is used up at once if it is zero, and otherwise never. -/
  | time (limit passed : Nat)
  /-- Two budgets together. -/
  | both (a b : Budget)
  deriving DecidableEq, Repr, Inhabited

namespace Budget

/-- A fresh budget of `n` decisions. -/
def ofDecisions (n : Nat) : Budget := decisions n 0

/-- A fresh budget of `ms` milliseconds. -/
def ofMillis (ms : Nat) : Budget := time ms 0

/-- A budget that may be left out; without it there is no bound. -/
def ofOption : Option Budget → Budget
  | some b => b
  | none => unlimited

/-- Whether the budget is used up. -/
def isSpent : Budget → Bool
  | unlimited => false
  | decisions limit made => limit ≤ made
  | time limit passed => limit ≤ passed
  | both a b => a.isSpent || b.isSpent

/-- The budget after one more decision. -/
def spend : Budget → Budget
  | unlimited => unlimited
  | decisions limit made => decisions limit (made + 1)
  | time limit passed => time limit passed
  | both a b => both a.spend b.spend

instance : Termination Budget where
  poll b := (b.isSpent, b)
  spend := spend

end Budget

end ClauseLearning
