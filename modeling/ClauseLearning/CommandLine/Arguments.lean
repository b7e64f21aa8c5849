/-
  The arguments of the command.

  Rule. There is one argument without a dash, the file. Options have long names, some of them a
  letter too, and letters can be joined behind one dash. An option with a value takes it from
  behind an equals sign, for a letter also from the rest of its argument, or else from the next
  argument, which must not begin with a dash unless it is a single dash. Behind two dashes all
  arguments are files. No option and no file may be given twice. Numbers are 64-bit words.

  Model. The arguments are read from left to right; the first that is wrong, or asks for help,
  decides.
-/
import ClauseLearning.Decimal.Word

namespace ClauseLearning.CommandLine

/-- The policies that can be named. -/
inductive PolicyName where
  /-- The lowest unassigned variable. -/
  | default
  /-- Variables of open clauses. -/
  | undeterminedClause
  /-- A priority queue. -/
  | priorityQueue
  deriving DecidableEq, Repr

/-- What the command is told to do. -/
structure Options where
  /-- The file. -/
  path : String
  /-- The policy that decides. -/
  policy : PolicyName
  /-- The milliseconds that may pass. -/
  timeLimit : Option Nat
  /-- The number of decisions that may be made. -/
  decisionLimit : Option Nat
  /-- Whether clauses that are always true are kept. -/
  keepTautologies : Bool
  /-- Whether messages are shown. -/
  verbose : Bool
  /-- Whether statistics are shown. -/
  logStatistics : Bool
  /-- Whether the decisions are shown. -/
  logPolicy : Bool
  deriving DecidableEq, Repr

/-- The options that take a value. -/
inductive Valued where
  /-- The policy. -/
  | policy
  /-- The time limit. -/
  | timeLimit
  /-- The decision limit. -/
  | decisionLimit
  deriving DecidableEq, Repr

/-- The options without a value. -/
inductive Switch where
  /-- Keep clauses that are always true. -/
  | keepTautologies
  /-- Show messages. -/
  | verbose
  /-- Show statistics. -/
  | logStatistics
  /-- Show the decisions. -/
  | logPolicy
  deriving DecidableEq, Repr

/-- What a name or letter stands for. -/
inductive Meaning where
  /-- An option without a value. -/
  | switch (s : Switch)
  /-- An option with a value. -/
  | valued (v : Valued)
  /-- A request for help or the version. -/
  | help
  deriving DecidableEq, Repr

/-- The meaning of a long name. -/
def Meaning.ofName? : String → Option Meaning
  | "policy" => some (.valued .policy)
  | "time-limit" => some (.valued .timeLimit)
  | "decision-limit" => some (.valued .decisionLimit)
  | "keep-tautologies" => some (.switch .keepTautologies)
  | "verbose" => some (.switch .verbose)
  | "log-statistics" => some (.switch .logStatistics)
  | "log-policy" => some (.switch .logPolicy)
  | "help" => some .help
  | "version" => some .help
  | _ => none

/-- The meaning of a letter. -/
def Meaning.ofLetter? : Char → Option Meaning
  | 't' => some (.valued .timeLimit)
  | 'v' => some (.switch .verbose)
  | 's' => some (.switch .logStatistics)
  | 'h' => some .help
  | 'V' => some .help
  | _ => none

/-- Why the arguments are no instruction. -/
inductive Refusal where
  /-- They are wrong. -/
  | wrong
  /-- They ask for help or the version. -/
  | help
  deriving DecidableEq, Repr

/-- The arguments read so far. -/
structure Draft where
  /-- The file. -/
  path : Option String
  /-- The policy. -/
  policy : Option PolicyName
  /-- The time limit. -/
  timeLimit : Option Nat
  /-- The decision limit. -/
  decisionLimit : Option Nat
  /-- The options without a value that were given. -/
  switches : List Switch
  /-- The option whose value is the next argument. -/
  awaiting : Option Valued
  /-- Whether only files follow. -/
  onlyFiles : Bool
  deriving DecidableEq, Repr

namespace Draft

/-- Nothing read yet. -/
def empty : Draft := ⟨none, none, none, none, [], none, false⟩

/-- Takes the file, which has a name and comes once. -/
def file (d : Draft) (path : String) : Except Refusal Draft :=
  if path.isEmpty || d.path.isSome then .error .wrong else .ok { d with path := some path }

/-- Takes an option without a value. -/
def switch (d : Draft) (s : Switch) : Except Refusal Draft :=
  if d.switches.contains s then .error .wrong else .ok { d with switches := s :: d.switches }

/-- The policy of a name. -/
def policyOf? : String → Option PolicyName
  | "default" => some .default
  | "undetermined-clause" => some .undeterminedClause
  | "priority-queue" => some .priorityQueue
  | _ => none

/-- Enters a value that must be there and must not be there already. -/
def enter {α : Type} (old new : Option α) (f : Option α → Draft) : Except Refusal Draft :=
  if old.isSome || new.isNone then .error .wrong else .ok (f new)

/-- Takes an option with its value. -/
def value (d : Draft) (v : Valued) (text : String) : Except Refusal Draft :=
  match v with
  | .policy => enter d.policy (policyOf? text) fun x => { d with policy := x }
  | .timeLimit =>
    enter d.timeLimit (Decimal.readWord? text.toList) fun x => { d with timeLimit := x }
  | .decisionLimit =>
    enter d.decisionLimit (Decimal.readWord? text.toList) fun x => { d with decisionLimit := x }

/-- Takes a long name, with the value behind the equals sign if there is one. -/
def long (d : Draft) (name : String) (text : Option String) : Except Refusal Draft :=
  match Meaning.ofName? name, text with
  | some (.switch s), none => d.switch s
  | some .help, none => .error .help
  | some (.valued v), some text => d.value v text
  | some (.valued v), none => .ok { d with awaiting := some v }
  | _, _ => .error .wrong

/-- Takes letters joined behind a dash. -/
def letters (d : Draft) : List Char → Except Refusal Draft
  | [] => .ok d
  | c :: cs =>
    match Meaning.ofLetter? c with
    | none => .error .wrong
    | some .help => .error .help
    | some (.switch s) => do letters (← d.switch s) cs
    | some (.valued v) =>
      match cs with
      | [] => .ok { d with awaiting := some v }
      | '=' :: text => d.value v (String.ofList text)
      | text => d.value v (String.ofList text)

/-- Takes one argument. -/
def argument (d : Draft) (a : String) : Except Refusal Draft :=
  match d.onlyFiles, d.awaiting, a.toList with
  | true, _, _ => d.file a
  | false, some v, ['-'] => { d with awaiting := none }.value v a
  | false, some _, '-' :: _ => .error .wrong
  | false, some v, _ => { d with awaiting := none }.value v a
  | false, none, ['-', '-'] => .ok { d with onlyFiles := true }
  | false, none, '-' :: '-' :: name =>
    match name.dropWhile (fun c => c != '=') with
    | [] => d.long (String.ofList name) none
    | _ :: text =>
      d.long (String.ofList (name.takeWhile fun c => c != '=')) (some (String.ofList text))
  | false, none, '-' :: c :: cs => d.letters (c :: cs)
  | false, none, _ => d.file a

/-- The options once all arguments are read. -/
def options (d : Draft) : Except Refusal Options :=
  match d.path, d.awaiting with
  | some path, none => .ok {
      path := path
      policy := d.policy.getD .default
      timeLimit := d.timeLimit
      decisionLimit := d.decisionLimit
      keepTautologies := d.switches.contains .keepTautologies
      verbose := d.switches.contains .verbose
      logStatistics := d.switches.contains .logStatistics
      logPolicy := d.switches.contains .logPolicy }
  | _, _ => .error .wrong

end Draft

/-- The options that the arguments give. -/
def parse (args : List String) : Except Refusal Options := do
  (← args.foldlM Draft.argument .empty).options

end ClauseLearning.CommandLine
