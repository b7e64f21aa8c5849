/-
  Statistics of the search, and the lines that report them.

  Model. A statistic has a name made of parts joined by underscores, from the outermost group to
  the value itself. A line has a heading that marks it, then the name and the value with an
  equals sign between.

  The time that a search takes is not among the statistics, as it does not depend on the problem
  alone.
-/
import ClauseLearning.Average

namespace ClauseLearning

/-- The name of a statistic or of a group of statistics. -/
structure StatName where
  /-- The parts joined so far. -/
  text : String
  deriving DecidableEq, Repr, Inhabited

namespace StatName

/-- The name of everything. -/
def root : StatName := ⟨""⟩

/-- The name made of the given parts. -/
def ofParts (parts : List String) : StatName := ⟨"_".intercalate parts⟩

/-- The name of a part of a group. -/
def attach (n : StatName) (part : String) : StatName :=
  if n.text.isEmpty then ⟨part⟩ else ⟨n.text ++ "_" ++ part⟩

end StatName

/-- The line of a statistic. -/
def statLine (heading name value : String) : String := heading ++ " " ++ name ++ "=" ++ value

/-- What a solver counts. The four plain counters are natural numbers, and agree with words of 64
    bits as long as less than `2 ^ 64` is counted; the averages have checked words of their own. -/
structure Statistics where
  /-- The decisions made. -/
  decisions : Nat
  /-- The conflicts met. -/
  conflicts : Nat
  /-- The literals that propagation made true. -/
  propagations : Nat
  /-- The learned clauses with one literal. -/
  unitClauses : Nat
  /-- The length of the learned clauses. -/
  learnedLength : Average
  /-- The number of levels gone back after a conflict. -/
  backtrack : Average
  deriving DecidableEq, Repr

namespace Statistics

/-- Nothing counted yet. -/
def zero : Statistics := ⟨0, 0, 0, 0, .empty, .empty⟩

instance : Inhabited Statistics := ⟨zero⟩

/-- The statistics by group, with names and values. -/
def groups (s : Statistics) : List (String × List (String × String)) :=
  [("engine_statistics",
    [("num_decisions", toString s.decisions),
     ("num_conflicts", toString s.conflicts),
     ("num_propagations", toString s.propagations)]),
   ("learned_clause_statistics",
    [("num_unit_clauses_learned", toString s.unitClauses),
     ("average_learned_clause_length", toString s.learnedLength),
     ("average_backtrack_amount", toString s.backtrack)])]

/-- The lines of all statistics under a name. -/
def lines (s : Statistics) (heading : String) (name : StatName) : List String :=
  s.groups.flatMap fun (group, values) =>
    values.map fun (part, value) =>
      statLine heading ((name.attach group).attach part).text value

end Statistics

end ClauseLearning
