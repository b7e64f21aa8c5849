/-
  The shortest decimal that reads back.

  Rule. A number is written with the fewest decimal digits that are nearer to it than to any other
  number of 53 binary digits, or as near as the ends of its interval allow: the ends belong to
  it exactly if its mantissa is even. Of the shortest decimals the nearest is taken, and of two
  equally near ones the greater. The digits are written in positional notation, without an
  exponent, and a whole number without a point.

  Model. The number is a ratio, and so are the ends of its interval, over one denominator. For
  one, two, … digits the two neighbours of the number on the grid of so many digits are tried;
  if a point of a grid lies in the interval, so does one of these two.
-/
import ClauseLearning.Decimal.Binary

namespace ClauseLearning

/-- A decimal: a whole number times a power of ten. -/
structure Decimal where
  /-- The digits. -/
  digits : Nat
  /-- The power of ten of the last digit. -/
  exponent : Int
  deriving DecidableEq, Repr, Inhabited

namespace Decimal

/-- A number and its interval, over one denominator: the reals between the ends are nearer to it
    than to any other number. -/
structure Interval where
  /-- The numerator of the lower end. -/
  lower : Nat
  /-- The numerator of the number. -/
  value : Nat
  /-- The numerator of the upper end. -/
  upper : Nat
  /-- The denominator. -/
  denominator : Nat
  /-- Whether the ends belong to the interval. -/
  closed : Bool
  deriving DecidableEq, Repr

/-- The interval of a number. Below a power of two the numbers are twice as dense. -/
def Interval.ofBinary (x : Binary) : Interval :=
  let m := x.mantissa
  let below := if m = Binary.least then 1 else 2
  let e := x.exponent - 2
  let s := Nat.pow 2 e.toNat
  ⟨(4 * m - below) * s, 4 * m * s, (4 * m + 2) * s, Nat.pow 2 (-e).toNat, m % 2 == 0⟩

/-- Whether `n / d` lies in the interval. -/
def Interval.contains (i : Interval) (n d : Nat) : Bool :=
  if i.closed then i.lower * d ≤ n * i.denominator && n * i.denominator ≤ i.upper * d
  else i.lower * d < n * i.denominator && n * i.denominator < i.upper * d

/-- The neighbour of the number on the grid of the multiples of `10 ^ e` that lies in the
    interval, if one does: the nearer of two, and the upper of two that are equally near. -/
def onGrid? (i : Interval) (e : Int) : Option Decimal :=
  let up := Nat.pow 10 e.toNat
  let down := Nat.pow 10 (-e).toNat
  let low := i.value * down / (i.denominator * up)
  let has := fun k => i.contains (k * up) down
  let twice := 2 * i.value * down
  let middle := (2 * low + 1) * i.denominator * up
  let nearest := if twice < middle then low else low + 1
  let other := if twice < middle then low + 1 else low
  if has nearest then some ⟨nearest, e⟩ else if has other then some ⟨other, e⟩ else none

/-- The exponent of the first decimal digit of `n / d`, for a fraction that is not zero: the
    greatest `e` among the next `fuel` ones below with `10 ^ e ≤ n / d`. -/
def leading (n d : Nat) : Nat → Int → Int
  | 0, e => e
  | fuel + 1, e =>
    if Nat.pow 10 e.toNat * d ≤ n * Nat.pow 10 (-e).toNat then e else leading n d fuel (e - 1)

/-- The shortest decimal of a number that is not zero: the first hit on a grid that has one
    digit more each time. Seventeen digits are always enough. -/
def shortestFrom (i : Interval) (first : Int) : Nat → Nat → Decimal
  | _, 0 => ⟨0, 0⟩
  | k, fuel + 1 =>
    match onGrid? i (first - k) with
    | some d => d
    | none => shortestFrom i first (k + 1) fuel

/-- The shortest decimal that reads back as the number. -/
def shortest (x : Binary) : Decimal :=
  if x.mantissa = 0 then ⟨0, 0⟩
  else
    let i := Interval.ofBinary x
    shortestFrom i (leading i.value i.denominator 400 30) 0 18

/-- The digits of a number, and zeros behind a text. -/
def zeros (n : Nat) : String := String.ofList (List.replicate n '0')

/-- The text without the zeros at its end. -/
def dropZeros (ds : List Char) : List Char := (ds.reverse.dropWhile fun c => c == '0').reverse

/-- The decimal in positional notation. -/
def write (x : Decimal) : String :=
  if 0 ≤ x.exponent then
    if x.digits = 0 then "0" else toString x.digits ++ zeros x.exponent.toNat
  else
    let places := (-x.exponent).toNat
    let ds := (toString x.digits).toList
    let padded := List.replicate (places + 1 - ds.length) '0' ++ ds
    let whole := padded.take (padded.length - places)
    let fraction := dropZeros (padded.drop (padded.length - places))
    if fraction.isEmpty then String.ofList whole
    else String.ofList whole ++ "." ++ String.ofList fraction

end Decimal

/-- The text of a number: its shortest decimal. -/
def Binary.write (x : Binary) : String := (Decimal.shortest x).write

end ClauseLearning
