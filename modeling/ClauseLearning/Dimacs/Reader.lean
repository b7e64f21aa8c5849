/-
  Reading DIMACS files, byte by byte.

  Rule. At the start of a line a `c` begins a comment and a `p` the header; both go on to the end
  of the line. Elsewhere stand numbers: a digit other than 0 begins a number, a minus sign must
  be followed by such a digit, and a 0 ends the clause of the numbers before it. A number ends
  with a blank; a clause may go on over several lines. A number must fit into 32 bits, and once
  there is a header its variable must be declared.

  Model. The reader is a machine with six modes that takes one character at a time, so it does
  not matter how the bytes are cut into chunks. What it has read stays readable when it fails.
-/
import ClauseLearning.Dimacs.Header

namespace ClauseLearning.Dimacs

/-- What the reader is in the middle of. -/
inductive Mode where
  /-- The start of a line, blanks aside. -/
  | lineStart
  /-- The header line, as far as it is read, the last character first. -/
  | header (line : List Char)
  /-- A comment. -/
  | comment
  /-- A minus sign. -/
  | minus
  /-- A number. -/
  | number (negative : Bool) (magnitude : Nat)
  /-- The space between numbers within a line. -/
  | between
  deriving DecidableEq, Repr

/-- The state of the machine. -/
structure Reader where
  /-- What the reader is in the middle of. -/
  mode : Mode
  /-- The header, once it is read. -/
  header? : Option Header
  /-- The numbers since the last clause ended, the last one first. -/
  pending : List Int
  /-- The clauses that have ended, the last one first. -/
  clauses : List (List Int)
  deriving DecidableEq, Repr

namespace Reader

/-- The reader before the first character. -/
def start : Reader := ⟨.lineStart, none, [], []⟩

instance : Inhabited Reader := ⟨start⟩

/-- Whether a number may end with the character. -/
def isSpace (c : Char) : Bool :=
  c == ' ' || c == '\t' || c == '\n' || c == '\x0c' || c == '\r'

/-- Whether a number may begin with the character. -/
def isLeadingDigit (c : Char) : Bool := c.isDigit && c != '0'

/-- The header line has ended. -/
def endHeader (r : Reader) (line : List Char) : Except ReadError Reader :=
  let text := trim line.reverse
  match Header.ofLine? text, r.header? with
  | none, _ => .error (.invalidHeader (String.ofList text))
  | some _, some _ => .error .duplicateHeader
  | some h, none => .ok { r with mode := .lineStart, header? := some h }

/-- The number of a sign and a magnitude. -/
def signed (negative : Bool) (magnitude : Nat) : Int :=
  if negative then -(magnitude : Int) else magnitude

/-- Whether the number fits into 32 bits and its variable is declared, as far as it is known
    which ones are. -/
def admits (r : Reader) (n : Int) : Bool :=
  -2147483648 ≤ n && n ≤ 2147483647 &&
    match r.header? with
    | some h => n.natAbs ≤ h.numVariables
    | none => true

/-- A number has ended. -/
def endNumber (r : Reader) (n : Int) (mode : Mode) : Except ReadError Reader :=
  if r.admits n then .ok { r with mode := mode, pending := n :: r.pending }
  else .error (.invalidLiteral n)

/-- A clause has ended. -/
def endClause (r : Reader) : Except ReadError Reader :=
  match r.header? with
  | none => .error .missingHeader
  | some _ =>
    .ok { r with mode := .between, pending := [], clauses := r.pending.reverse :: r.clauses }

/-- Takes a character that must begin a number or end a clause. -/
def startNumber (r : Reader) (c : Char) : Except ReadError Reader :=
  if c = '0' then r.endClause
  else if isLeadingDigit c then .ok { r with mode := .number false (Decimal.digitValue c) }
  else if c = '-' then .ok { r with mode := .minus }
  else .error (.unexpectedCharacter c)

/-- Takes one character. -/
def step (r : Reader) (c : Char) : Except ReadError Reader :=
  match r.mode with
  | .lineStart =>
    if isSpace c then .ok r
    else if c = 'p' then .ok { r with mode := .header ['p'] }
    else if c = 'c' then .ok { r with mode := .comment }
    else r.startNumber c
  | .header line =>
    if c = '\n' then r.endHeader line else .ok { r with mode := .header (c :: line) }
  | .comment => .ok (if c = '\n' then { r with mode := .lineStart } else r)
  | .minus =>
    if isLeadingDigit c then .ok { r with mode := .number true (Decimal.digitValue c) }
    else .error (.unexpectedCharacter c)
  | .number negative m =>
    if isSpace c then
      r.endNumber (signed negative m) (if c = '\n' then .lineStart else .between)
    else if c.isDigit then .ok { r with mode := .number negative (10 * m + Decimal.digitValue c) }
    else .error (.unexpectedCharacter c)
  | .between =>
    if c = '\n' then .ok { r with mode := .lineStart }
    else if isSpace c then .ok r
    else r.startNumber c

/-- Takes characters until one is refused. -/
def feed (r : Reader) : List Char → Reader × Option ReadError
  | [] => (r, none)
  | c :: cs =>
    match r.step c with
    | .ok r => r.feed cs
    | .error e => (r, some e)

/-- The end of the file within a line: a header line ends with it, a number can not. -/
def endLine (r : Reader) : Except ReadError Reader :=
  match r.mode with
  | .header line => r.endHeader line
  | .minus => .error .unterminatedClause
  | .number _ _ => .error .unterminatedClause
  | _ => .ok r

/-- What is wrong with the file as a whole, once its last line has ended. -/
def verdict? (r : Reader) : Option ReadError :=
  match r.header? with
  | none => some .missingHeader
  | some h =>
    if !r.pending.isEmpty then some .unterminatedClause
    else if h.numClauses ≠ r.clauses.length then
      some (.incorrectClauseCount h.numClauses r.clauses.length)
    else none

/-- The end of the file. -/
def finish (r : Reader) : Reader × Option ReadError :=
  match r.endLine with
  | .error e => (r, some e)
  | .ok r => (r, r.verdict?)

end Reader

/-- What was read of a file, and why not more. -/
structure Reading where
  /-- The number of variables, if there was a header. -/
  numVariables? : Option Nat
  /-- The clauses, as signed numbers. -/
  clauses : List (List Int)
  /-- Why the file is refused, if it is. -/
  error? : Option ReadError
  deriving DecidableEq, Repr

/-- What a reader has read. -/
def Reading.ofReader (r : Reader) (error? : Option ReadError) : Reading :=
  ⟨r.header?.map Header.numVariables, r.clauses.reverse, error?⟩

/-- The character of a byte. -/
def charOf (b : UInt8) : Char := Char.ofNat b.toNat

/-- Reads on, chunk after chunk. An empty chunk is the end of the file, and so is the end of the
    chunks, unless the file breaks off there. -/
def readOn (breaksOff : Bool) (r : Reader) : List (List UInt8) → Reader × Option ReadError
  | [] => if breaksOff then (r, some .io) else r.finish
  | [] :: _ => r.finish
  | (b :: bs) :: chunks =>
    match r.feed ((b :: bs).map charOf) with
    | (r, none) => readOn breaksOff r chunks
    | (r, some e) => (r, some e)

/-- Reads a file that comes in chunks, and may break off after the last one. -/
def read (chunks : List (List UInt8)) (breaksOff : Bool) : Reading :=
  match readOn breaksOff .start chunks with
  | (r, error?) => .ofReader r error?

end ClauseLearning.Dimacs
