/-
  The running average of natural numbers.

  Model. The sum and the number of the terms are kept as 64-bit words; a term that does not fit
  any more is refused. The average is taken in numbers of 53 binary digits: both words are
  rounded, and then their quotient is.
-/
import ClauseLearning.Decimal.Shortest
import ClauseLearning.Fault

namespace ClauseLearning

/-- The sum and the number of the terms so far. -/
structure Average where
  /-- The sum. -/
  sum : Nat
  /-- The number of terms. -/
  count : Nat
  deriving DecidableEq, Repr, Inhabited

namespace Average

/-- The average of no terms. -/
def empty : Average := ⟨0, 0⟩

/-- The words are below this bound. -/
def bound : Nat := UInt64.size

/-- Adds a term. -/
def add (a : Average) (n : Nat) : Except Fault Average :=
  if a.sum + n < bound ∧ a.count + 1 < bound then .ok ⟨a.sum + n, a.count + 1⟩
  else .error .overflow

/-- The average, zero without terms. -/
def value (a : Average) : Binary := (Binary.ofNat a.sum).div (Binary.ofNat a.count)

instance : ToString Average := ⟨fun a => a.value.write⟩

end Average

end ClauseLearning
