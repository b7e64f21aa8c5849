/-
  The header line of a DIMACS file, and why a file can be refused.

  Rule. The line, without blanks at its ends, begins with the text of `Header.opening` and goes on
  with exactly two words, the number of variables and the number of clauses. Both are 64-bit words
  in decimal, with or without a plus sign in front.

  The characters of a file are its bytes, so none is beyond 255, and `isBlank` lists the blanks
  among these: the controls from tab to carriage return, the space, next line and no-break space.
-/
import ClauseLearning.Decimal.Word

namespace ClauseLearning.Dimacs

/-- Why a file is refused. -/
inductive ReadError where
  /-- The file could not be read to its end. -/
  | io
  /-- A clause ends, or the file does, without a header. -/
  | missingHeader
  /-- The header line is none. -/
  | invalidHeader (text : String)
  /-- There is a second header. -/
  | duplicateHeader
  /-- The character can not stand where it stands. -/
  | unexpectedCharacter (c : Char)
  /-- The number does not fit into 32 bits, or its variable is not declared. -/
  | invalidLiteral (n : Int)
  /-- The file ends within a clause. -/
  | unterminatedClause
  /-- There are more or fewer clauses than declared. -/
  | incorrectClauseCount (expected parsed : Nat)
  deriving DecidableEq, Repr

/-- The text of the error. -/
def ReadError.message : ReadError → String
  | io => "failed to read file"
  | missingHeader => "missing dimacs header"
  | invalidHeader text => s!"'{text}' is an invalid header"
  | duplicateHeader => "multiple dimacs headers found"
  | unexpectedCharacter c => s!"unexpected character '{c}'"
  | invalidLiteral n => s!"'{n}' is an invalid DIMACS literal"
  | unterminatedClause => "the last clause in the source is not terminated with a '0'"
  | incorrectClauseCount expected parsed =>
    s!"expected to parse {expected} clauses, but parsed {parsed}"

/-- Whether a character, which is a byte, is blank. -/
def isBlank (c : Char) : Bool :=
  (9 ≤ c.toNat && c.toNat ≤ 13) || c.toNat == 32 || c.toNat == 133 || c.toNat == 160

/-- The characters without the blanks at both ends. -/
def trim (cs : List Char) : List Char :=
  ((cs.dropWhile isBlank).reverse.dropWhile isBlank).reverse

/-- Puts a character in front of the first word. -/
def extendFirst (c : Char) : List (List Char) → List (List Char)
  | [] => [[c]]
  | w :: ws => (c :: w) :: ws

/-- The words of a line: the longest runs of characters that are not blank. -/
def words : List Char → List (List Char)
  | [] => []
  | [c] => if isBlank c then [] else [[c]]
  | c :: d :: cs =>
    if isBlank c then words (d :: cs)
    else if isBlank d then [c] :: words (d :: cs)
    else extendFirst c (words (d :: cs))

/-- What a header declares. -/
structure Header where
  /-- The variables are the numbers from 1 to this one. -/
  numVariables : Nat
  /-- The number of clauses. -/
  numClauses : Nat
  deriving DecidableEq, Repr

/-- How a header line begins. -/
def Header.opening : List Char := "p cnf ".toList

/-- Reads a header line without blanks at its ends. -/
def Header.ofLine? (line : List Char) : Option Header :=
  if Header.opening.isPrefixOf line then
    match words line with
    | [_, _, n, m] => do return ⟨← Decimal.readWord? n, ← Decimal.readWord? m⟩
    | _ => none
  else none

end ClauseLearning.Dimacs
