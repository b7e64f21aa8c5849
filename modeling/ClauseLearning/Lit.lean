/-
  Variables and literals.

  Model. A variable is a number and a literal is a variable with a polarity. Outside the
  library a literal is a nonzero signed number: its magnitude is the variable and its sign the
  polarity. Inside, literals index tables by their code, twice the variable plus one for the
  positive literal, so the two literals of a variable are neighbours and the order of the codes
  is by variable first and negative before positive.

  Codes are 32-bit words, so a literal exists only over a variable below `2 ^ 31`;
  `Lit.ofVar?` and `Lit.ofInt` refuse the others.
-/
namespace ClauseLearning

/-- A propositional variable, named by its number. -/
abbrev Var := Nat

/-- A variable or its negation. -/
structure Lit where
  /-- The variable the literal speaks about. -/
  var : Var
  /-- Whether the literal is the variable itself rather than its negation. -/
  positive : Bool
  deriving DecidableEq, Repr, Inhabited

/-- Why a signed number is not a literal. -/
inductive LitError where
  /-- Zero has no sign, so it stands for no literal. -/
  | zero
  /-- The magnitude is no variable a literal can be over. -/
  | tooLarge
  deriving DecidableEq, Repr

/-- The text of the error, where it has one. -/
def LitError.message? : LitError → Option String
  | .zero => some "0 does not denote a literal"
  | .tooLarge => none

namespace Lit

/-- The literals are those over variables below this bound, half of the 32-bit words. -/
def varBound : Nat := UInt32.size / 2

/-- The literal of the other polarity. -/
protected def neg (l : Lit) : Lit := ⟨l.var, !l.positive⟩

instance : Neg Lit := ⟨Lit.neg⟩

@[simp] theorem neg_var (l : Lit) : (-l).var = l.var := rfl

@[simp] theorem neg_positive (l : Lit) : (-l).positive = !l.positive := rfl

@[simp] theorem neg_neg (l : Lit) : - -l = l := by
  cases l
  simp [Neg.neg, Lit.neg]

theorem neg_ne_self (l : Lit) : -l ≠ l := by
  intro h
  simpa using congrArg Lit.positive h

/-- The literal over `v` of the given polarity, if there is one. -/
def ofVar? (v : Var) (positive : Bool) : Option Lit :=
  if v < varBound then some ⟨v, positive⟩ else none

/-- The literal a signed number stands for. -/
def ofInt (n : Int) : Except LitError Lit :=
  if n = 0 then .error .zero
  else match ofVar? n.natAbs (0 < n) with
    | some l => .ok l
    | none => .error .tooLarge

/-- The signed number that stands for the literal. -/
def toInt (l : Lit) : Int := if l.positive then l.var else -(l.var : Int)

instance : ToString Lit := ⟨fun l => toString l.toInt⟩

/-- The index of the literal in a table with an entry for every literal. -/
def code (l : Lit) : Nat := 2 * l.var + l.positive.toNat

/-- The literal with the given code. -/
def ofCode (n : Nat) : Lit := ⟨n / 2, n % 2 == 1⟩

@[simp] theorem ofCode_code (l : Lit) : ofCode l.code = l := by
  obtain ⟨v, b⟩ := l
  have bit := b.toNat_lt
  have half : (2 * v + b.toNat) / 2 = v := by grind
  have parity : (2 * v + b.toNat) % 2 = b.toNat := by grind
  simp only [ofCode, code, half, parity]
  cases b <;> rfl

theorem code_inj {l m : Lit} (h : l.code = m.code) : l = m := by
  rw [← ofCode_code l, h, ofCode_code]

instance : Ord Lit := ⟨fun l m => compare l.code m.code⟩

/-- The literals in the order of their codes. -/
def sort (ls : List Lit) : List Lit := ls.mergeSort fun l m => l.code ≤ m.code

end Lit

end ClauseLearning
