/-
  Unit propagation with two watched literals.

  Model. The state of propagation holds the clauses, the trail, and for every literal `l` the
  watchers to look at once `l` is true: a clause with at least two literals is watched through
  its first two, so its watchers stand in the lists of their negations. A watcher also
  remembers another literal of its clause; while that one is true the clause need not be looked
  at. The literals still to be propagated are the trail from `next` on.

  Rule. When `t` becomes true every watcher in its list is visited (`visit`). The watched
  literal `-t` is false now. If the other watched literal is not true, a literal that is not
  false is looked for among the rest of the clause and watched instead; if there is none, the
  other watched literal is forced, and if it is false too the clause is in conflict.
-/
import ClauseLearning.Clause.Store
import ClauseLearning.Trail

namespace ClauseLearning

/-- An entry of a watch list. -/
structure Watcher where
  /-- A literal of the clause other than the watched one. -/
  cached : Lit
  /-- The watched clause. -/
  clause : ClauseRef
  deriving DecidableEq, Repr

/-- Clauses, trail and watch lists. -/
structure Propagation where
  /-- What is assigned, and why. -/
  trail : Trail
  /-- The clauses. -/
  clauses : ClauseStore
  /-- For the code of every literal, the watchers to visit once it is true. -/
  watches : Table (Array Watcher)
  /-- The place on the trail of the first literal that was not propagated. -/
  next : Nat
  deriving Repr, DecidableEq

namespace Propagation

/-- The state without clauses and variables. -/
def empty : Propagation := ⟨.empty, .empty, .empty, 0⟩

instance : Inhabited Propagation := ⟨empty⟩

/-- Makes room for the watchers of both literals of a variable. -/
def growWatches (p : Propagation) (v : Var) : Propagation :=
  match p with
  | ⟨trail, clauses, watches, next⟩ =>
    ⟨trail, clauses, watches.grow (Lit.code ⟨v, true⟩) #[], next⟩

/-- Makes a variable part of the problem. -/
def register (p : Propagation) (v : Var) : Except Fault Propagation :=
  match p with
  | ⟨trail, clauses, watches, next⟩ => do
    let trail ← trail.register v
    return growWatches ⟨trail, clauses, watches, next⟩ v

/-- Makes a literal true for the given reason, unless it has a value; says whether it is true
    now. -/
def enqueue (p : Propagation) (l : Lit) (reason : Option ClauseRef) :
    Except Fault (Bool × Propagation) :=
  match p with
  | ⟨trail, clauses, watches, next⟩ => do
    let (agrees, trail) ← trail.enqueue l reason
    return (agrees, ⟨trail, clauses, watches, next⟩)

/-- Puts the literals of a clause in the order `ls`. -/
def arrange (p : Propagation) (r : ClauseRef) (ls : List Lit) : Except Fault Propagation :=
  match p with
  | ⟨trail, clauses, watches, next⟩ => do
    let clauses ← clauses.arrange r ls
    return ⟨trail, clauses, watches, next⟩

/-- Adds a watcher to the list of the literal `l`. -/
def addWatcher (p : Propagation) (l : Lit) (w : Watcher) : Except Fault Propagation :=
  match p with
  | ⟨trail, clauses, watches, next⟩ => do
    let watches ← watches.update l.code fun ws => ws.push w
    return ⟨trail, clauses, watches, next⟩

/-- Watches a clause through its first two literals. -/
def attach (p : Propagation) (r : ClauseRef) : Except Fault Propagation := do
  match (← p.clauses.read r).literals with
  | a :: b :: _ =>
    let p ← p.addWatcher (-a) ⟨b, r⟩
    p.addWatcher (-b) ⟨a, r⟩
  | _ => .error .clauseTooShort

/-- Keeps a clause and gives its reference. -/
def keep (p : Propagation) (c : Clause) : ClauseRef × Propagation :=
  match p with
  | ⟨trail, clauses, watches, next⟩ =>
    match clauses.add c with
    | (r, clauses) => (r, ⟨trail, clauses, watches, next⟩)

/-- Takes a kept clause into account: its false literals move behind the others, a clause with
    one literal left forces it, and a clause with at least two literals that is not in conflict
    is watched. Gives the clause if all its literals are false. -/
def addKept (p : Propagation) (r : ClauseRef) : Except Fault (Option ClauseRef × Propagation) := do
  let literals := (← p.clauses.read r).literals
  let p := literals.foldl (fun p l => p.growWatches l.var) p
  match literals with
  | [] => return (some r, p)
  | [l] =>
    let (agrees, p) ← p.enqueue l (some r)
    return (if agrees then none else some r, p)
  | _ =>
    let front := Clause.nonFalseFirst p.trail.isFalse literals
    let p ← p.arrange r front
    match front with
    | a :: b :: _ =>
      if p.trail.isFalse a then return (some r, p)
      else if p.trail.isFalse b && p.trail.isOpen a then
        let (_, p) ← p.enqueue a (some r)
        return (none, ← p.attach r)
      else return (none, ← p.attach r)
    | _ => .error .outOfRange

/-- Keeps a clause and takes it into account; gives it if all its literals are false. -/
def add (p : Propagation) (c : Clause) : Except Fault (Option ClauseRef × Propagation) :=
  match p.keep c with
  | (r, p) => p.addKept r

/-- Keeps a learned clause, watched where it has two literals to watch, and gives its
    reference. -/
def learn (p : Propagation) (c : Clause) : Except Fault (ClauseRef × Propagation) :=
  match p.keep c with
  | (r, p) => do if 2 ≤ c.length then return (r, ← p.attach r) else return (r, p)

/-! ## Propagating one literal -/

/-- What becomes of a watcher that is visited. -/
inductive Visit where
  /-- It stays in the list, as the given watcher. -/
  | stays (w : Watcher)
  /-- It has moved to the list of another literal. -/
  | moved
  /-- It stays in the list, as the given watcher, and its clause is in conflict. -/
  | conflict (w : Watcher)
  deriving DecidableEq, Repr

/-- Visits a clause whose watched literals are `a`, which is not known to be true, and `b`,
    which has become false. -/
@[inline] def visitClause (p : Propagation) (r : ClauseRef) (a b : Lit) (rest : List Lit) :
    Except Fault (Visit × Propagation) := do
  if p.trail.isTrue a then return (.stays ⟨a, r⟩, ← p.arrange r (a :: b :: rest))
  else
    match rest.span p.trail.isFalse with
    | (before, c :: behind) =>
      let p ← p.arrange r (a :: c :: before ++ b :: behind)
      return (.moved, ← p.addWatcher (-c) ⟨a, r⟩)
    | (_, []) =>
      let p ← p.arrange r (a :: b :: rest)
      if p.trail.isFalse a then return (.conflict ⟨a, r⟩, p)
      else
        let (_, p) ← p.enqueue a (some r)
        return (.stays ⟨a, r⟩, p)

/-- Visits a watcher of the list of `t`, which has become true. -/
@[inline] def visit (p : Propagation) (t : Lit) (w : Watcher) :
    Except Fault (Visit × Propagation) := do
  if p.trail.isTrue w.cached then return (.stays w, p)
  else
    match (← p.clauses.read w.clause).literals with
    | a :: b :: rest =>
      if a = -t then p.visitClause w.clause b a rest else p.visitClause w.clause a b rest
    | _ => .error .outOfRange

/-- Visits the watchers of the list of `t` one after the other until one is in conflict. Gives
    the clause in conflict and the list that remains, which begins with `kept`. -/
def visitAll (t : Lit) :
    List Watcher → Array Watcher → Propagation →
      Except Fault (Option ClauseRef × Array Watcher × Propagation)
  | [], kept, p => .ok (none, kept, p)
  | w :: ws, kept, p => do
    match ← p.visit t w with
    | (.stays w', p) => visitAll t ws (kept.push w') p
    | (.moved, p) => visitAll t ws kept p
    | (.conflict w', p) => return (some w'.clause, kept.push w' ++ ws.toArray, p)

/-- Takes the watch list of a literal, which is empty afterwards. -/
def takeWatchers (p : Propagation) (t : Lit) : Except Fault (Array Watcher × Propagation) :=
  match p with
  | ⟨trail, clauses, watches, next⟩ => do
    let list ← watches.read t.code
    let watches ← watches.set t.code #[]
    return (list, ⟨trail, clauses, watches, next⟩)

/-- Replaces the watch list of a literal. -/
def putWatchers (p : Propagation) (t : Lit) (list : Array Watcher) : Except Fault Propagation :=
  match p with
  | ⟨trail, clauses, watches, next⟩ => do
    let watches ← watches.set t.code list
    return ⟨trail, clauses, watches, next⟩

/-- Visits all watchers of a literal that has become true; gives the clause in conflict, if
    there is one. -/
def propagateLit (p : Propagation) (t : Lit) : Except Fault (Option ClauseRef × Propagation) := do
  let (list, p) ← p.takeWatchers t
  let (conflict, list, p) ← visitAll t list.toList #[] p
  return (conflict, ← p.putWatchers t list)

/-! ## Propagating the trail -/

/-- Propagates at most `n` literals of the trail. -/
def propagateMany : Nat → Propagation → Except Fault (Option ClauseRef × Propagation)
  | 0, _ => .error .roundsExhausted
  | n + 1, p =>
    match p.trail.entry? p.next with
    | none => .ok (none, p)
    | some t => do
      match ← { p with next := p.next + 1 }.propagateLit t with
      | (some conflict, p) => return (some conflict, { p with next := p.trail.length })
      | (none, p) => propagateMany n p

/-- Propagates the trail until all of it is propagated or a clause is in conflict, which is
    given. Every literal that is propagated has a watch list of its own, so their number is
    bounded by the number of lists. -/
def propagate (p : Propagation) : Except Fault (Option ClauseRef × Propagation) :=
  propagateMany (p.watches.size + 1) p

/-- Takes note that the trail has at most `n` literals now. -/
def synchronise (p : Propagation) (n : Nat) : Propagation := { p with next := min p.next n }

/-- Goes back to a decision level, and the queue with it. -/
def cancelUntil (p : Propagation) (k : Nat) : Except Fault Propagation :=
  match p with
  | ⟨trail, clauses, watches, next⟩ => do
    let trail ← trail.cancelUntil k
    let n := trail.length
    return synchronise ⟨trail, clauses, watches, next⟩ n

end Propagation

end ClauseLearning
