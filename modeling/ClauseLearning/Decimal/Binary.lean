/-
  Numbers with 53 binary digits.

  Model. A number is a mantissa below `2 ^ 53` times a power of two; unless it is zero, its
  mantissa has all 53 digits. `roundRatio` gives the number nearest to a quotient, and of two
  equally near ones the one with the even mantissa. Exponents are not bounded, which is right
  for quotients of 64-bit words: they are far from both ends of the range of such numbers.
-/
namespace ClauseLearning

/-- A mantissa of at most 53 digits times a power of two. -/
structure Binary where
  /-- The digits. -/
  mantissa : Nat
  /-- The power of two of the last digit. -/
  exponent : Int
  deriving DecidableEq, Repr, Inhabited

namespace Binary

/-- The least mantissa of 53 digits: two to the power of 52. -/
def least : Nat := 4503599627370496

/-- Zero. -/
def zero : Binary := ⟨0, 0⟩

/-- The whole number nearest to `a / b`, of two the even one. -/
def roundHalfEven (a b : Nat) : Nat :=
  let q := a / b
  let twice := 2 * (a % b)
  if twice < b then q else if b < twice then q + 1 else q + q % 2

/-- The numerator and denominator of `(a / b) / 2 ^ e`. -/
def scale (a b : Nat) (e : Int) : Nat × Nat := (a * Nat.pow 2 (-e).toNat, b * Nat.pow 2 e.toNat)

/-- The exponent at which `a / b` has 53 digits before the point. -/
def exponentOf (a b : Nat) : Int :=
  let e : Int := (a.log2 : Int) - b.log2 - 52
  let (n, d) := scale a b e
  if n / d < least then e - 1 else e

/-- The number nearest to `a / b`, of two the one with the even mantissa; zero where `b` is. -/
def roundRatio (a b : Nat) : Binary :=
  if a = 0 ∨ b = 0 then zero
  else
    let e := exponentOf a b
    let (n, d) := scale a b e
    let m := roundHalfEven n d
    if m = 2 * least then ⟨least, e + 1⟩ else ⟨m, e⟩

/-- The number nearest to a whole number. -/
def ofNat (n : Nat) : Binary := roundRatio n 1

/-- The number nearest to the quotient of two numbers; zero where the divisor is. -/
def div (x y : Binary) : Binary :=
  let e := x.exponent - y.exponent
  roundRatio (x.mantissa * Nat.pow 2 e.toNat) (y.mantissa * Nat.pow 2 (-e).toNat)

end Binary

end ClauseLearning
