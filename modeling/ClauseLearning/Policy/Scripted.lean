/-
  The policy that follows a list of signed numbers.

  Rule. An entry names the variable of its magnitude with the polarity of its sign. In turn, each
  request takes the next entry whatever the state of its variable, and an entry 0 names no
  variable; or else each request takes the first entry of the whole list whose variable is
  unassigned. Where no entry is left to take, the lowest unassigned variable is named, with a
  polarity given in advance.
-/
import ClauseLearning.Policy

namespace ClauseLearning

/-- Decides as a list of signed numbers says. -/
structure Scripted where
  /-- The entries that are left. -/
  entries : List Int
  /-- Whether a request takes the first entry whose variable is unassigned. -/
  skipping : Bool
  /-- The polarity once no entry is left to take. -/
  fallback : Bool
  /-- The polarity of the last request. -/
  lastPolarity : Bool
  deriving DecidableEq, Repr

namespace Scripted

/-- The policy at the start of its list. -/
def new (entries : List Int) (skipping fallback : Bool) : Scripted :=
  ⟨entries, skipping, fallback, true⟩

/-- The answer where no entry is left to take. -/
def fallBack (p : Scripted) (a : Assignment) : Suggestion Scripted :=
  ⟨a.lowestUnassigned?, false, { p with lastPolarity := p.fallback }⟩

/-- Names the next variable to decide on. -/
def next (p : Scripted) (a : Assignment) : Suggestion Scripted :=
  if p.skipping then
    match p.entries.find? fun e => a.isUnassigned e.natAbs with
    | some e => ⟨some e.natAbs, false, { p with lastPolarity := decide (0 < e) }⟩
    | none => p.fallBack a
  else
    match p.entries with
    | [] => p.fallBack a
    | e :: rest =>
      let p := { p with entries := rest, lastPolarity := decide (0 < e) }
      ⟨if e = 0 then none else some e.natAbs, false, p⟩

end Scripted

instance : Policy Scripted where
  next p a _ := .ok (p.next a)
  polarity p _ := p.lastPolarity

end ClauseLearning
