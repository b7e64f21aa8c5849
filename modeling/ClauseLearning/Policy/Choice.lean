/-
  The policies of the library as one type, so that a policy can be chosen when the program runs.
-/
import ClauseLearning.Policy.Lowest
import ClauseLearning.Policy.OpenClauses
import ClauseLearning.Policy.RankedQueue
import ClauseLearning.Policy.Recorded
import ClauseLearning.Policy.Scripted

namespace ClauseLearning

/-- One of the policies that decide for themselves. -/
inductive PlainPolicy where
  /-- The lowest unassigned variable. -/
  | lowest (p : LowestFirst)
  /-- Variables of open clauses. -/
  | openClauses (p : OpenClauses)
  /-- A priority queue. -/
  | rankedQueue (p : RankedQueue)
  /-- A list of decisions. -/
  | scripted (p : Scripted)
  deriving Repr

/-- The suggestion of a policy as one of a wider type of policies. -/
def Suggestion.map {π ρ : Type} (f : π → ρ) (s : Suggestion π) : Suggestion ρ :=
  ⟨s.var?, s.consumed, f s.policy⟩

namespace PlainPolicy

/-- Names the next variable to decide on. -/
def next (p : PlainPolicy) (a : Assignment) (store : ClauseStore) :
    Except Fault (Suggestion PlainPolicy) :=
  match p with
  | lowest p => do return (← Policy.next p a store).map lowest
  | openClauses p => do return (← Policy.next p a store).map openClauses
  | rankedQueue p => do return (← Policy.next p a store).map rankedQueue
  | scripted p => do return (← Policy.next p a store).map scripted

/-- The value to try first for a variable. -/
def polarity (p : PlainPolicy) (v : Var) : Bool :=
  match p with
  | lowest p => Policy.polarity p v
  | openClauses p => Policy.polarity p v
  | rankedQueue p => Policy.polarity p v
  | scripted p => Policy.polarity p v

/-- Tells the policy of variables that were asked for. -/
def require (p : PlainPolicy) (vs : List Var) : PlainPolicy :=
  match p with
  | lowest p => lowest (Policy.require p vs)
  | openClauses p => openClauses (Policy.require p vs)
  | rankedQueue p => rankedQueue (Policy.require p vs)
  | scripted p => scripted (Policy.require p vs)

end PlainPolicy

instance : Policy PlainPolicy where
  next := PlainPolicy.next
  polarity := PlainPolicy.polarity
  require := PlainPolicy.require

/-- A policy, recorded or not. -/
inductive AnyPolicy where
  /-- A policy without a record. -/
  | plain (p : PlainPolicy)
  /-- A policy with a record. -/
  | recorded (r : Recorded PlainPolicy)
  deriving Repr

namespace AnyPolicy

/-- The lowest unassigned variable, without a record. -/
def lowest : AnyPolicy := .plain (.lowest {})

/-- Names the next variable to decide on. -/
def next (p : AnyPolicy) (a : Assignment) (store : ClauseStore) :
    Except Fault (Suggestion AnyPolicy) :=
  match p with
  | plain p => do return (← Policy.next p a store).map plain
  | recorded r => do return (← Policy.next r a store).map recorded

/-- The value to try first for a variable. -/
def polarity (p : AnyPolicy) (v : Var) : Bool :=
  match p with
  | plain p => Policy.polarity p v
  | recorded r => Policy.polarity r v

/-- Tells the policy of variables that were asked for. -/
def require (p : AnyPolicy) (vs : List Var) : AnyPolicy :=
  match p with
  | plain p => plain (Policy.require p vs)
  | recorded r => recorded (Policy.require r vs)

/-- The policy without its record. -/
def withoutRecord : AnyPolicy → AnyPolicy
  | plain p => plain p
  | recorded r => plain r.inner

/-- The policy with other installed variables, where it is a plain one that has some. -/
def withInstalled (p : AnyPolicy) (vs : List Var) : AnyPolicy :=
  match p with
  | plain (.openClauses p) => plain (.openClauses (p.withInstalled vs))
  | plain (.rankedQueue p) => plain (.rankedQueue (p.withInstalled vs))
  | p => p

/-- The policy with other ranks, where it is a plain one that has some. -/
def withRanks (p : AnyPolicy) (ranks : List (Var × Nat)) : AnyPolicy :=
  match p with
  | plain (.rankedQueue p) => plain (.rankedQueue (p.withRanks ranks))
  | p => p

/-- The policy with other preferences, where it is a plain one that has some. -/
def withPreferences (p : AnyPolicy) (prefs : List (Var × Nat)) : AnyPolicy :=
  match p with
  | plain (.openClauses p) => plain (.openClauses (p.withPreferences prefs))
  | p => p

end AnyPolicy

instance : Policy AnyPolicy where
  next := AnyPolicy.next
  polarity := AnyPolicy.polarity
  require := AnyPolicy.require

end ClauseLearning
