/-
  64-bit words in decimal.

  Rule. A word is written with at least one decimal digit, and a plus sign may stand in front.
  Zeros in front of the number do not count; what counts is that the number fits.
-/
namespace ClauseLearning.Decimal

/-- The value of a decimal digit. -/
def digitValue (c : Char) : Nat := c.toNat - '0'.toNat

/-- The number that decimal digits stand for. -/
def digitsValue (ds : List Char) : Nat := ds.foldl (fun n c => 10 * n + digitValue c) 0

/-- Reads decimal digits, at least one, that stand for a number below `bound`. -/
def readDigits? (bound : Nat) (ds : List Char) : Option Nat :=
  if !ds.isEmpty && ds.all Char.isDigit && digitsValue ds < bound then some (digitsValue ds)
  else none

/-- The words are below this bound. -/
def wordBound : Nat := UInt64.size

/-- Reads a word. -/
def readWord? : List Char → Option Nat
  | '+' :: ds => readDigits? wordBound ds
  | ds => readDigits? wordBound ds

end ClauseLearning.Decimal
