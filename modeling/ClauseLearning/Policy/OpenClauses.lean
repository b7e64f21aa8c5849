/-
  The policy that decides on variables of clauses that are still open, that is, without a true
  literal.

  Rule. The candidates are considered group by group: the installed variables in the given
  order, where they are preferred; the required variables; the variables of the open clauses;
  all unassigned variables. Within the last three groups the variable of the highest preference
  is taken, of several the one with the lowest number.

  Model. The policy keeps an index of the clauses (`ClauseIndex`), up to date from the changes of
  the assignment. Clauses that are new to the policy are taken in when it is asked. The
  candidates from the open clauses are found by a refresh and then only thinned out, until none
  of them is unassigned.

  Among all unassigned variables only those with a preference and the lowest one can be the best,
  since all others have preference zero and a higher number than the lowest one (`others`).
-/
import ClauseLearning.Policy
import ClauseLearning.Policy.ClauseIndex

namespace ClauseLearning

/-- Decides on variables of clauses without a true literal. -/
structure OpenClauses where
  /-- Whether installed variables come first. -/
  preferInstalled : Bool
  /-- The installed variables, in the order in which they are tried. -/
  installed : List Var
  /-- The required variables. -/
  required : List Var
  /-- The preferences of the variables that have one. -/
  preferences : NatMap Nat
  /-- The variables that have a preference. -/
  preferred : List Var
  /-- The clauses it knows. -/
  index : ClauseIndex
  /-- The candidates found at the last refresh, without those that were thinned out. -/
  candidates : List Var
  deriving Repr

namespace OpenClauses

/-- The policy before it has seen a clause. -/
def new (preferInstalled : Bool) : OpenClauses :=
  ⟨preferInstalled, [], [], .empty, [], .empty, []⟩

/-- The policy with other installed variables. -/
def withInstalled (p : OpenClauses) (vs : List Var) : OpenClauses := { p with installed := vs }

/-- The policy with other preferences; a later one for the same variable overrides an earlier
    one. -/
def withPreferences (p : OpenClauses) (prefs : List (Var × Nat)) : OpenClauses :=
  { p with preferences := .ofPairs prefs, preferred := prefs.map Prod.fst }

/-- The preference of a variable, zero unless it is given one. -/
def preference (p : OpenClauses) (v : Var) : Nat := (p.preferences.get? v).getD 0

/-- Whether `v` comes before `w` within a group. -/
def better (p : OpenClauses) (v w : Var) : Bool :=
  p.preference w < p.preference v || (p.preference v == p.preference w && v < w)

/-- The best of the given variables. -/
def best? (p : OpenClauses) : List Var → Option Var
  | [] => none
  | v :: vs => some (vs.foldl (fun w v => if p.better v w then v else w) v)

/-- The best unassigned variable among the given ones. -/
def bestOpen? (p : OpenClauses) (a : Assignment) (vs : List Var) : Option Var :=
  p.best? (vs.filter a.isUnassigned)

/-- Takes in the clauses that are new to the policy. -/
def indexNew (p : OpenClauses) (store : ClauseStore) : Except Fault OpenClauses :=
  match p with
  | ⟨prefer, installed, required, preferences, preferred, index, candidates⟩ => do
    let index ← index.addNew store
    return ⟨prefer, installed, required, preferences, preferred, index, candidates⟩

/-- Brings the index up to date with the changes and finds the candidates anew. -/
def refresh (p : OpenClauses) (a : Assignment) (store : ClauseStore) : Except Fault OpenClauses :=
  match p with
  | ⟨prefer, installed, required, preferences, preferred, index, _⟩ => do
    let index ← index.noteChanges a store
    let candidates := index.candidates a
    return ⟨prefer, installed, required, preferences, preferred, index, candidates⟩

/-- The first candidate of the groups that come before the open clauses. -/
def early? (p : OpenClauses) (a : Assignment) : Option Var :=
  let installed := if p.preferInstalled then p.installed.find? a.isUnassigned else none
  installed.or (p.bestOpen? a p.required)

/-- The variables among which the best one of all unassigned variables is. -/
def others (p : OpenClauses) (a : Assignment) : List Var :=
  a.lowestUnassigned?.toList ++ p.preferred

/-- Names a variable, with the index up to date. The last refresh sees the changes only if
    none has consumed them before. -/
def choose (p : OpenClauses) (a : Assignment) (store : ClauseStore) (consumed : Bool) :
    Except Fault (Suggestion OpenClauses) := do
  match p.early? a with
  | some v => return ⟨some v, consumed, p⟩
  | none =>
    let p := { p with candidates := p.candidates.filter a.isUnassigned }
    match p.best? p.candidates with
    | some v => return ⟨some v, consumed, p⟩
    | none =>
      let p ← p.refresh (if consumed then a.consume else a) store
      return ⟨(p.best? p.candidates).or (p.bestOpen? a (p.others a)), true, p⟩

/-- Names the next variable to decide on. -/
def next (p : OpenClauses) (a : Assignment) (store : ClauseStore) :
    Except Fault (Suggestion OpenClauses) := do
  if p.index.size < store.size then
    let p ← p.indexNew store
    choose (← p.refresh a store) a store true
  else p.choose a store false

end OpenClauses

instance : Policy OpenClauses where
  next := OpenClauses.next
  require p vs := { p with required := p.required ++ vs }

end ClauseLearning
