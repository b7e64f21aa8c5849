/-
  What the command does.

  Model. From its arguments and the contents of files the command makes a report: an exit code and
  the lines it prints. Lines with a message, an explanation or a statistic begin with `c`, the
  result with `s`, and the values with `v`. Wrong arguments give code 2 and no line, a file that
  can not be used code 1, a fault code 101; what was printed before stays printed.
-/
import ClauseLearning.CommandLine.Arguments
import ClauseLearning.Dimacs.Problem
import ClauseLearning.Policy.Choice
import ClauseLearning.Solver.Search

namespace ClauseLearning.CommandLine

/-- The exit code of the command and the lines it prints. -/
structure Report where
  /-- The exit code. -/
  code : Nat
  /-- The lines. -/
  lines : List String
  deriving DecidableEq, Repr

/-- A line that is not a result. -/
def remark (text : String) : String := "c " ++ text

/-- The lines of a text; a line break at the end ends the last line. -/
def linesOf (text : String) : List String :=
  match (text.splitOn "\n").reverse with
  | "" :: rest => rest.reverse
  | all => all.reverse

/-! ## The file -/

/-- The name a path ends with, if it ends with one. -/
def fileName? (path : String) : Option String :=
  match ((path.splitOn "/").filter fun part => part != "" && part != ".").getLast? with
  | some ".." => none
  | name => name

/-- What follows the last point of a file name, unless the name begins with that point. -/
def extension? (path : String) : Option String := do
  let parts := (← fileName? path).splitOn "."
  match parts.reverse with
  | last :: before => if before.isEmpty || before == [""] then none else some last
  | [] => none

/-- Why the command fails. -/
inductive Failure where
  /-- The file can not be opened, for the given reason. -/
  | notOpened (reason : String)
  /-- The file is of no known kind. -/
  | notSupported (path : String)
  /-- The file is not well formed. -/
  | notWellFormed (e : Dimacs.ReadError)
  deriving DecidableEq, Repr

/-- The text of the failure. -/
def Failure.message : Failure → String
  | notOpened reason => s!"IO error, more details: {reason}"
  | notSupported path => s!"The file {path} is not supported."
  | notWellFormed e => s!"The dimacs file was invalid, more details: {e.message}"

/-- The line that reports a failure. -/
def Failure.line (f : Failure) : String := remark s!"Execution failed, error: {f.message}"

/-! ## Messages -/

/-- The messages about the clause at a place of the file. -/
def addedMessages (store : ClauseStore) (k : Nat) (a : Added) : List String :=
  let first := match a with
    | .skipped c => [s!"Skipping tautology {c}"]
    | .infeasible r =>
      (store.get? r).toList.map fun c => s!"Clause {c} is infeasible at the root"
    | _ => []
  let second := a.error?.toList.map fun e => s!"Input clause #{k}: {e.message}"
  first ++ second

/-- The messages about the clauses of the file. -/
def intakeMessages (i : Dimacs.Intake) : List String :=
  let store := match i.solver with
    | .ok s => s.clauses
    | .error _ => .empty
  i.added.reverse.zipIdx.flatMap fun (a, k) => addedMessages store (k + 1) a

/-- The message about the end of a search that has found the problem to have no solution. -/
def searchMessages (before : Solver) (v : Verdict) : List String :=
  match before.status.infeasible?, v with
  | none, .unsatisfiable w =>
    (w.clauses.get? w.conflicting).toList.map fun c =>
      s!"Conflict on clause {c} at the root level"
  | _, _ => []

/-! ## The answer -/

/-- The lines of an answer. -/
def verdictLines (s : Solver) : Verdict → Except Fault (List String)
  | .satisfiable solution =>
    let complaint :=
      if solution.satisfiesGiven s.clauses then []
      else [remark "The solution does not satisfy every input clause"]
    let values := " ".intercalate (solution.literals.map toString)
    .ok (complaint ++ ["s SATISFIABLE", "v " ++ values ++ " 0"])
  | .unsatisfiable w => do
    return "s UNSATISFIABLE" :: (linesOf (← w.text)).map remark
  | .unknown => .ok ["s UNKNOWN"]

/-- The lines about the decisions of a recorded policy. -/
def recordLines {π : Type} (detailed : Bool) (r : Recorded π) : List String :=
  (linesOf ("\n".intercalate r.histogramLines) ++ linesOf (r.report detailed)).map remark

/-- The policy of a name; installed variables are preferred. -/
def PolicyName.policy : PolicyName → PlainPolicy
  | default => .lowest {}
  | undeterminedClause => .openClauses (.new true)
  | priorityQueue => .rankedQueue (.new true)

/-- The budget that the options set. -/
def Options.budget (o : Options) : Budget :=
  .both (.ofOption (o.timeLimit.map .ofMillis)) (.ofOption (o.decisionLimit.map .ofDecisions))

/-- Searches with the policy of the options, recorded if they ask for it; gives the answer, the
    solver and the lines about the decisions. -/
def Options.search (o : Options) (s : Solver) :
    Except Fault (Verdict × Solver × List String) := do
  if o.logPolicy then
    let out ← s.solve o.budget (Recorded.new o.policy.policy)
    return (out.verdict, out.solver, recordLines o.verbose out.policy)
  else
    let out ← s.solve o.budget o.policy.policy
    return (out.verdict, out.solver, [])

/-- The lines of the statistics, where the options ask for them. -/
def Options.statisticsLines (o : Options) (s : Solver) : List String :=
  if o.logStatistics then s.statistics.lines (remark "STAT") .root else []

/-- The report once a problem is read: `before` are the lines printed by then. -/
def Options.answer (o : Options) (before : List String) (s : Solver) : Report :=
  match o.search s with
  | .error _ => ⟨101, before⟩
  | .ok (v, after, record) =>
    let searched := if o.verbose then (searchMessages s v).map remark else []
    let printed := before ++ searched ++ record
    match verdictLines after v with
    | .error _ => ⟨101, printed⟩
    | .ok answer => ⟨0, printed ++ answer ++ o.statisticsLines after⟩

/-- The report on the contents of the file. -/
def Options.report (o : Options) (before : List String) (bytes : List UInt8) : Report :=
  let reading := Dimacs.read [bytes] false
  let intake := reading.intake (!o.keepTautologies)
  let printed := before ++ if o.verbose then (intakeMessages intake).map remark else []
  match intake.solver, reading.error? with
  | .error _, _ => ⟨101, printed⟩
  | .ok _, some e => ⟨1, printed ++ [(Failure.notWellFormed e).line]⟩
  | .ok s, none => o.answer printed s

/-- What the command does with its options, where `contents` opens a file or says why it can
    not. -/
def Options.run (o : Options) (contents : String → Except String (List UInt8)) : Report :=
  let before := if o.verbose then [remark "Logging successfully configured"] else []
  if extension? o.path = some "cnf" then
    match contents o.path with
    | .error reason => ⟨1, before ++ [(Failure.notOpened reason).line]⟩
    | .ok bytes => o.report before bytes
  else ⟨1, before ++ [(Failure.notSupported o.path).line]⟩

/-- What the command does with its arguments. -/
def run (args : List String) (contents : String → Except String (List UInt8)) : Report :=
  match parse args with
  | .error .wrong => ⟨2, []⟩
  | .error .help => ⟨0, []⟩
  | .ok o => o.run contents

end ClauseLearning.CommandLine
