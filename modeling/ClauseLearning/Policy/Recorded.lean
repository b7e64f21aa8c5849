/-
  Policies under observation: what was suggested, and what had changed before.

  Model. A recorded policy asks the policy inside and passes its answer on. Before, it writes
  down the changes of the assignment since the last request, and after, it takes them as
  consumed, whether the inner policy looked at them or not.

  The record can be read as a histogram of the suggestions and as a report, one line for every
  suggestion.
-/
import ClauseLearning.Policy

namespace ClauseLearning

/-- A policy with a record of its answers. -/
structure Recorded (π : Type) where
  /-- The policy that answers. -/
  inner : π
  /-- The variables marked as installed. -/
  installed : List Var
  /-- The variables marked as required. -/
  required : List Var
  /-- The variables suggested, in time order. -/
  suggestions : Array Var
  /-- The changes seen before each request, in time order. -/
  observed : Array (List Change)
  deriving Repr

namespace Recorded

variable {π : Type}

/-- The policy with an empty record. -/
def new (p : π) : Recorded π := ⟨p, [], [], #[], #[]⟩

/-- The record with other variables marked as installed. -/
def withInstalled (r : Recorded π) (vs : List Var) : Recorded π := { r with installed := vs }

/-- Passes a request on and records it. -/
def next [Policy π] (r : Recorded π) (a : Assignment) (store : ClauseStore) :
    Except Fault (Suggestion (Recorded π)) :=
  match r with
  | ⟨inner, installed, required, suggestions, observed⟩ => do
    let answer ← Policy.next inner a store
    let suggestions := match answer.var? with
      | some v => suggestions.push v
      | none => suggestions
    return ⟨answer.var?, true,
      ⟨answer.policy, installed, required, suggestions, observed.push a.changes⟩⟩

/-- Marks variables as required, and no longer as installed, and passes them on. -/
def require [Policy π] (r : Recorded π) (vs : List Var) : Recorded π :=
  { r with
    inner := Policy.require r.inner vs
    required := r.required ++ vs
    installed := r.installed.filter fun v => !vs.contains v }

/-! ## Reading the record -/

/-- How often each variable occurs in a list. -/
def tally (vs : List Var) : NatMap Nat :=
  vs.foldl (fun m v => m.insert v ((m.get? v).getD 0 + 1)) .empty

/-- The suggested variables with the numbers of their suggestions, the most frequent first and
    equally frequent ones by number. -/
def histogram (r : Recorded π) : List (Var × Nat) :=
  let all := r.suggestions.toList
  let counts := tally all
  let entries := ((firsts id all).mergeSort fun v w => v ≤ w).map fun v =>
    (v, (counts.get? v).getD 0)
  entries.mergeSort fun x y => y.2 ≤ x.2

/-- Fills a text up with blanks on its left. -/
def padLeft (n : Nat) (s : String) : String :=
  String.ofList (List.replicate (n - s.length) ' ') ++ s

/-- Fills a text up with blanks on its right. -/
def padRight (n : Nat) (s : String) : String :=
  s ++ String.ofList (List.replicate (n - s.length) ' ')

/-- The lines of the histogram: a variable and its count, which is five characters wide. -/
def histogramLines (r : Recorded π) : List String :=
  r.histogram.map fun (v, n) => toString v ++ " " ++ padLeft 5 (toString n)

/-- The variables that had a value, or had gone, before the first request: one to a line. -/
def initialText (changes : List Change) : String :=
  "\n".intercalate ((changes.filter fun ch => ch.current != .unassigned).map fun ch =>
    s!"{ch.var} : {ch.current}")

/-- The text of a change between two suggestions, on a line of its own. -/
def changeText (ch : Change) : String :=
  "\n\t\t" ++ padRight 10 (toString ch.previous) ++ " - " ++ padRight 10 (toString ch.current) ++
    " : " ++ toString ch.var

/-- The text of a suggestion: its number, its marks and the variable; in detail also the changes
    of other variables up to the next request. -/
def suggestionText (r : Recorded π) (detailed : Bool) (i : Nat) (v : Var) : String :=
  let required := if r.required.contains v then "R" else " "
  let installed := if r.installed.contains v then "I" else " "
  let line := padLeft 4 (toString i) ++ " " ++ required ++ installed ++ " - " ++ toString v
  if detailed then
    let changes := (r.observed[i + 1]?.getD []).filter fun ch => ch.var != v
    line ++ String.join (changes.map changeText)
  else line

/-- The report: what was assigned before the first request, then the suggestions. -/
def report (r : Recorded π) (detailed : Bool) : String :=
  let initial := r.observed[0]?.toList.map initialText
  let lines := r.suggestions.toList.zipIdx.map fun (v, i) => r.suggestionText detailed i v
  "\n".intercalate (initial ++ lines)

end Recorded

instance {π : Type} [Policy π] : Policy (Recorded π) where
  next := Recorded.next
  polarity r := Policy.polarity r.inner
  require := Recorded.require

end ClauseLearning
