/-
  Solvers on assignments that cannot be told apart.

  Model. The search hands the changes of the assignment to its policy and never looks at them
  itself. So a relation between assignments that differ in their changes at most, and that giving
  a value keeps, is kept by everything a search does (`Assignment.Kept`); trails, states of
  propagation and solvers are related when they are the same but for related assignments.

  Rule. On related solvers each part of a search meets the same fault, or gives the same answer
  and leaves related solvers.
-/
import ClauseLearning.Proofs.Alike
import ClauseLearning.Solver.Search

namespace ClauseLearning

/-! ## Assignments -/

namespace Assignment

variable {a a' : Assignment}

/-- The assignments differ at most in their changes. -/
def Resembles (a a' : Assignment) : Prop := ∃ log, a' = { a with log := log }

theorem Resembles.refl (a : Assignment) : a.Resembles a := ⟨a.log, rfl⟩

theorem Resembles.state_eq (h : a.Resembles a') : a'.state = a.state := by
  obtain ⟨log, rfl⟩ := h
  rfl

theorem Resembles.numAssigned_eq (h : a.Resembles a') : a'.numAssigned = a.numAssigned := by
  obtain ⟨log, rfl⟩ := h
  rfl

theorem Resembles.numVariables_eq (h : a.Resembles a') : a'.numVariables = a.numVariables := by
  obtain ⟨log, rfl⟩ := h
  rfl

theorem Resembles.contains_eq (h : a.Resembles a') (v : Var) : a'.contains v = a.contains v :=
  congrArg (fun state => (state v).isKnown) h.state_eq

theorem Resembles.put (h : a.Resembles a') (v : Var) (new : VarState) :
    Alike Resembles (a.put v new) (a'.put v new) := by
  obtain ⟨log', rfl⟩ := h
  obtain ⟨states, log, numAssigned, numVariables⟩ := a
  simp only [Assignment.put]
  exact Alike.bind_same fun _ => Alike.bind_same fun _ => Alike.bind_same fun _ => ⟨_, rfl⟩

theorem Resembles.reserve (h : a.Resembles a') (v : Var) :
    (a.reserve v).Resembles (a'.reserve v) := by
  obtain ⟨log, rfl⟩ := h
  exact ⟨log, rfl⟩

theorem Resembles.set (h : a.Resembles a') (v : Var) (value : Option Bool) :
    Alike Resembles (a.set v value) (a'.set v value) := by
  unfold Assignment.set
  rw [h.state_eq]
  split
  · rfl
  · rfl
  · exact (h.reserve v).put v _

theorem Resembles.remove (h : a.Resembles a') (v : Var) :
    Alike Resembles (a.remove v) (a'.remove v) := by
  unfold Assignment.remove
  rw [h.contains_eq]
  split
  · exact h.put v _
  · exact h

/-- Related assignments differ at most in their changes, and giving a value keeps them related. -/
structure Kept (same : Assignment → Assignment → Prop) : Prop where
  /-- They differ at most in their changes. -/
  resembles : ∀ {a a'}, same a a' → a.Resembles a'
  /-- A value is given or taken back. -/
  set : ∀ {a a'} v value, same a a' → Alike same (a.set v value) (a'.set v value)

theorem kept_resembles : Kept Resembles := ⟨id, fun v value h => h.set v value⟩

theorem kept_eq : Kept Eq where
  resembles h := h ▸ .refl _
  set v value h := Alike.eq_iff.2 (congrArg (Assignment.set · v value) h)

end Assignment

variable {same : Assignment → Assignment → Prop}

/-! ## Trails -/

/-- The trails are the same but for related assignments. -/
inductive Trail.Like (same : Assignment → Assignment → Prop) : Trail → Trail → Prop
  /-- Only the assignments differ. -/
  | intro {a a' : Assignment} (h : same a a') (causes : Table Cause) (entries : LevelStack Lit) :
    Like same ⟨a, causes, entries⟩ ⟨a', causes, entries⟩

namespace Trail.Like

variable {t t' : Trail}

theorem level_eq (h : t.Like same t') : t'.level = t.level := by
  cases h
  rfl

theorem length_eq (h : t.Like same t') : t'.length = t.length := by
  cases h
  rfl

theorem watchOrder_eq (h : t.Like same t') : Solver.watchOrder t' = Solver.watchOrder t := by
  cases h
  rfl

theorem hasLevel_eq (h : t.Like same t') : t'.hasLevel = t.hasLevel := by
  cases h
  rfl

theorem openLevel (h : t.Like same t') : t.openLevel.Like same t'.openLevel := by
  cases h with
  | intro h causes entries => exact .intro h _ _

section Kept

variable (kept : Assignment.Kept same)
include kept

theorem litValue?_eq (h : t.Like same t') : t'.litValue? = t.litValue? := by
  obtain ⟨h, causes, entries⟩ := h
  funext l
  unfold Trail.litValue? Assignment.litValue? Assignment.value?
  rw [(kept.resembles h).state_eq]

theorem isTrue_eq (h : t.Like same t') : t'.isTrue = t.isTrue := by
  have value := h.litValue?_eq kept
  unfold Trail.litValue? at value
  funext l
  unfold Trail.isTrue Assignment.isTrue
  rw [congrFun value l]

theorem isFalse_eq (h : t.Like same t') : t'.isFalse = t.isFalse := by
  have value := h.litValue?_eq kept
  unfold Trail.litValue? at value
  funext l
  unfold Trail.isFalse Assignment.isFalse
  rw [congrFun value l]

theorem isOpen_eq (h : t.Like same t') : t'.isOpen = t.isOpen := by
  funext l
  unfold Trail.isOpen
  rw [h.litValue?_eq kept]

theorem register (h : t.Like same t') (v : Var) :
    Alike (Trail.Like same) (t.register v) (t'.register v) := by
  obtain ⟨h, causes, entries⟩ := h
  simp only [Trail.register, (kept.resembles h).contains_eq]
  split
  · exact .intro h _ _
  · exact (kept.set v none h).bind fun _ _ h => .intro h _ _

theorem assign (h : t.Like same t') (l : Lit) (reason : Option ClauseRef) :
    Alike (Trail.Like same) (t.assign l reason) (t'.assign l reason) := by
  refine (h.register kept l.var).bind fun _ _ h => ?_
  obtain ⟨h, causes, entries⟩ := h
  refine (kept.set l.var (some l.positive) h).bind fun _ _ h => ?_
  exact Alike.bind_same fun causes => .intro h _ _

theorem enqueue (h : t.Like same t') (l : Lit) (reason : Option ClauseRef) :
    Alike (Beside (Trail.Like same)) (t.enqueue l reason) (t'.enqueue l reason) := by
  unfold Trail.enqueue
  rw [h.litValue?_eq kept]
  split
  · exact ⟨rfl, h⟩
  · exact (h.assign kept l reason).bind fun _ _ h => ⟨rfl, h⟩

theorem undo (h : t.Like same t') : Alike (Trail.Like same) t.undo t'.undo := by
  obtain ⟨h, causes, entries⟩ := h
  simp only [Trail.undo]
  rcases entries.pop with ⟨_ | l, entries⟩
  · rfl
  · refine (kept.set l.var none h).bind fun _ _ h => ?_
    exact Alike.bind_same fun causes => .intro h _ _

theorem undoMany (h : t.Like same t') (n : Nat) :
    Alike (Trail.Like same) (t.undoMany n) (t'.undoMany n) := by
  induction n generalizing t t' with
  | zero => exact h
  | succ n ih => exact (h.undo kept).bind fun _ _ => ih

theorem cancel (h : t.Like same t') : Alike (Trail.Like same) t.cancel t'.cancel := by
  obtain ⟨h, causes, entries⟩ := h
  exact Alike.bind_same fun _ => undoMany kept (.intro h _ _) _

theorem cancelMany (h : t.Like same t') (n : Nat) :
    Alike (Trail.Like same) (t.cancelMany n) (t'.cancelMany n) := by
  induction n generalizing t t' with
  | zero => exact h
  | succ n ih => exact (h.cancel kept).bind fun _ _ => ih

theorem cancelUntil (h : t.Like same t') (k : Nat) :
    Alike (Trail.Like same) (t.cancelUntil k) (t'.cancelUntil k) := by
  unfold Trail.cancelUntil
  rw [h.level_eq]
  split
  · exact h.cancelMany kept _
  · rfl

end Kept

end Trail.Like

/-! ## Propagation -/

/-- The states of propagation are the same but for related assignments. -/
inductive Propagation.Like (same : Assignment → Assignment → Prop) :
    Propagation → Propagation → Prop
  /-- Only the assignments differ. -/
  | intro {t t' : Trail} (h : t.Like same t') (clauses : ClauseStore)
    (watches : Table (Array Watcher)) (next : Nat) :
    Like same ⟨t, clauses, watches, next⟩ ⟨t', clauses, watches, next⟩

namespace Propagation.Like

variable {p p' : Propagation}

theorem arrange (h : p.Like same p') (r : ClauseRef) (ls : List Lit) :
    Alike (Propagation.Like same) (p.arrange r ls) (p'.arrange r ls) := by
  obtain ⟨h, clauses, watches, next⟩ := h
  exact Alike.bind_same fun _ => .intro h _ _ _

theorem addWatcher (h : p.Like same p') (l : Lit) (w : Watcher) :
    Alike (Propagation.Like same) (p.addWatcher l w) (p'.addWatcher l w) := by
  obtain ⟨h, clauses, watches, next⟩ := h
  exact Alike.bind_same fun _ => .intro h _ _ _

theorem takeWatchers (h : p.Like same p') (t : Lit) :
    Alike (Beside (Propagation.Like same)) (p.takeWatchers t) (p'.takeWatchers t) := by
  obtain ⟨h, clauses, watches, next⟩ := h
  exact Alike.bind_same fun _ => Alike.bind_same fun _ => ⟨rfl, .intro h _ _ _⟩

theorem putWatchers (h : p.Like same p') (t : Lit) (list : Array Watcher) :
    Alike (Propagation.Like same) (p.putWatchers t list) (p'.putWatchers t list) := by
  obtain ⟨h, clauses, watches, next⟩ := h
  exact Alike.bind_same fun _ => .intro h _ _ _

theorem clauses_eq (h : p.Like same p') : p'.clauses = p.clauses := by
  cases h
  rfl

theorem watches_eq (h : p.Like same p') : p'.watches = p.watches := by
  cases h
  rfl

theorem trail (h : p.Like same p') : p.trail.Like same p'.trail := by
  cases h
  assumption

theorem attach (h : p.Like same p') (r : ClauseRef) :
    Alike (Propagation.Like same) (p.attach r) (p'.attach r) := by
  unfold Propagation.attach
  rw [h.clauses_eq]
  refine Alike.bind_same fun c => ?_
  split
  · exact (h.addWatcher _ _).bind fun _ _ h => h.addWatcher _ _
  · rfl

theorem learn (h : p.Like same p') (c : Clause) :
    Alike (Beside (Propagation.Like same)) (p.learn c) (p'.learn c) := by
  have keep : Beside (Propagation.Like same) (p.keep c) (p'.keep c) := by
    obtain ⟨h, clauses, watches, next⟩ := h
    exact ⟨rfl, .intro h _ _ _⟩
  unfold Propagation.learn
  generalize p.keep c = x, p'.keep c = x' at keep ⊢
  obtain ⟨r, p⟩ := x
  obtain ⟨r', p'⟩ := x'
  obtain ⟨e, h⟩ := keep
  obtain rfl : r = r' := e
  dsimp only
  split
  · exact (h.attach r).bind fun _ _ h => ⟨rfl, h⟩
  · exact ⟨rfl, h⟩

theorem walk_eq (h : p.Like same p') (a : Analysis) (ls : List Lit) :
    Analysis.walk p' a ls = Analysis.walk p a ls := by
  obtain ⟨⟨h, causes, entries⟩, clauses, watches, next⟩ := h
  induction ls generalizing a with
  | nil => rfl
  | cons l ls ih =>
    simp only [Analysis.walk, ih]
    rfl

/-- The analysis of a conflict reads reasons and levels, no values. -/
theorem firstUip_eq (h : p.Like same p') (conflict : ClauseRef) :
    p'.firstUip conflict = p.firstUip conflict := by
  have walk := h.walk_eq
  obtain ⟨⟨h, causes, entries⟩, clauses, watches, next⟩ := h
  refine bind_congr fun a => ?_
  rw [walk]
  rfl

section Kept

variable (kept : Assignment.Kept same)
include kept

theorem enqueue (h : p.Like same p') (l : Lit) (reason : Option ClauseRef) :
    Alike (Beside (Propagation.Like same)) (p.enqueue l reason) (p'.enqueue l reason) := by
  obtain ⟨h, clauses, watches, next⟩ := h
  refine (h.enqueue kept l reason).bind fun (b, _) (b', _) ⟨agrees, h⟩ => ?_
  exact ⟨agrees, .intro h _ _ _⟩

theorem visitClause (h : p.Like same p') (r : ClauseRef) (a b : Lit) (rest : List Lit) :
    Alike (Beside (Propagation.Like same)) (p.visitClause r a b rest)
      (p'.visitClause r a b rest) := by
  unfold Propagation.visitClause
  rw [h.trail.isTrue_eq kept, h.trail.isFalse_eq kept]
  split
  · exact (h.arrange r _).bind fun _ _ h => ⟨rfl, h⟩
  · split
    · refine (h.arrange r _).bind fun _ _ h => ?_
      exact (h.addWatcher _ _).bind fun _ _ h => ⟨rfl, h⟩
    · refine (h.arrange r _).bind fun p p' h => ?_
      rw [h.trail.isFalse_eq kept]
      split
      · exact ⟨rfl, h⟩
      · exact (h.enqueue kept a (some r)).bind fun _ _ h => ⟨rfl, h.2⟩

theorem visit (h : p.Like same p') (t : Lit) (w : Watcher) :
    Alike (Beside (Propagation.Like same)) (p.visit t w) (p'.visit t w) := by
  unfold Propagation.visit
  rw [h.trail.isTrue_eq kept, h.clauses_eq]
  split
  · exact ⟨rfl, h⟩
  · refine Alike.bind_same fun c => ?_
    split
    · split
      · exact h.visitClause kept _ _ _ _
      · exact h.visitClause kept _ _ _ _
    · rfl

theorem visitAll (h : p.Like same p') (t : Lit) (ws : List Watcher) (list : Array Watcher) :
    Alike (Beside (Beside (Propagation.Like same))) (Propagation.visitAll t ws list p)
      (Propagation.visitAll t ws list p') := by
  induction ws generalizing list p p' with
  | nil => exact ⟨rfl, rfl, h⟩
  | cons w ws ih =>
    refine (h.visit kept t w).bind fun (v, p) (v', p') ⟨e, h⟩ => ?_
    obtain rfl : v = v' := e
    cases v with
    | stays w' => exact ih h _
    | moved => exact ih h _
    | conflict w' => exact ⟨rfl, rfl, h⟩

theorem propagateLit (h : p.Like same p') (t : Lit) :
    Alike (Beside (Propagation.Like same)) (p.propagateLit t) (p'.propagateLit t) := by
  refine (h.takeWatchers t).bind fun (list, p) (list', p') ⟨e, h⟩ => ?_
  obtain rfl : list = list' := e
  refine (h.visitAll kept t list.toList #[]).bind fun (c, list, p) (c', list', p') ⟨e, e', h⟩ => ?_
  obtain rfl : c = c' := e
  obtain rfl : list = list' := e'
  exact (h.putWatchers t list).bind fun _ _ h => ⟨rfl, h⟩

theorem propagateMany (h : p.Like same p') (n : Nat) :
    Alike (Beside (Propagation.Like same)) (Propagation.propagateMany n p)
      (Propagation.propagateMany n p') := by
  induction n generalizing p p' with
  | zero => rfl
  | succ n ih =>
    obtain ⟨⟨h, causes, entries⟩, clauses, watches, next⟩ := h
    simp only [Propagation.propagateMany, Trail.entry?]
    cases entries.get? next with
    | none => exact ⟨rfl, .intro (.intro h _ _) _ _ _⟩
    | some t =>
      have taken := Trail.Like.intro h causes entries
      have visited := propagateLit kept (.intro taken clauses watches (next + 1)) t
      refine visited.bind fun (c, p) (c', p') ⟨e, h⟩ => ?_
      obtain rfl : c = c' := e
      cases c with
      | none => exact ih h
      | some conflict =>
        obtain ⟨h, clauses, watches, next⟩ := h
        exact ⟨rfl, h.length_eq ▸ .intro h _ _ _⟩

theorem propagate (h : p.Like same p') :
    Alike (Beside (Propagation.Like same)) p.propagate p'.propagate := by
  unfold Propagation.propagate
  rw [h.watches_eq]
  exact h.propagateMany kept _

theorem cancelUntil (h : p.Like same p') (k : Nat) :
    Alike (Propagation.Like same) (p.cancelUntil k) (p'.cancelUntil k) := by
  obtain ⟨h, clauses, watches, next⟩ := h
  refine (h.cancelUntil kept k).bind fun t t' h => ?_
  rw [h.length_eq]
  exact .intro h _ _ _

end Kept

end Propagation.Like

/-! ## Solvers -/

/-- The solvers are the same but for related assignments. -/
inductive Solver.Like (same : Assignment → Assignment → Prop) : Solver → Solver → Prop
  /-- Only the assignments differ. -/
  | intro {p p' : Propagation} (h : p.Like same p') (status : Status)
    (learned : Array ClauseRef) (statistics : Statistics) (skip : Bool) :
    Like same ⟨status, p, learned, statistics, skip⟩ ⟨status, p', learned, statistics, skip⟩

/-- The answers are the same but for related assignments. -/
inductive Verdict.Like (same : Assignment → Assignment → Prop) : Verdict → Verdict → Prop
  /-- A solution. -/
  | satisfiable {a a' : Assignment} (h : same a a') :
    Like same (.satisfiable ⟨a⟩) (.satisfiable ⟨a'⟩)
  /-- No solution, for the same reasons. -/
  | unsatisfiable (w : Refutation) : Like same (.unsatisfiable w) (.unsatisfiable w)
  /-- No answer. -/
  | unknown : Like same .unknown .unknown

namespace Solver.Like

variable {s s' : Solver}

theorem refl_of (s : Solver) (h : same s.assignment s.assignment) : s.Like same s :=
  .intro (.intro (.intro h _ _) _ _ _) _ _ _ _

theorem propagation (h : s.Like same s') : s.propagation.Like same s'.propagation := by
  cases h
  assumption

theorem trail (h : s.Like same s') : s.trail.Like same s'.trail := h.propagation.trail

theorem assignment (h : s.Like same s') : same s.assignment s'.assignment := by
  obtain ⟨⟨⟨h, -, -⟩, -, -, -⟩, -, -, -, -⟩ := h
  exact h

theorem status_eq (h : s.Like same s') : s'.status = s.status := by
  cases h
  rfl

theorem statistics_eq (h : s.Like same s') : s'.statistics = s.statistics := by
  cases h
  rfl

theorem clauses_eq (h : s.Like same s') : s'.clauses = s.clauses := h.propagation.clauses_eq

theorem level_eq (h : s.Like same s') : s'.level = s.level := h.trail.level_eq

theorem atRoot_eq (h : s.Like same s') : s'.trail.atRoot = s.trail.atRoot :=
  congrArg (· == 0) h.level_eq

/-- The changes may be consumed on one side, if that leaves the assignments related. -/
theorem noteConsumed {π π' : Type} {x : Suggestion π} {x' : Suggestion π'} (h : s.Like same s')
    (applied : same (x.applyTo s.assignment) (x'.applyTo s'.assignment)) :
    (s.noteConsumed x.consumed).Like same (s'.noteConsumed x'.consumed) := by
  obtain ⟨⟨⟨-, causes, entries⟩, clauses, watches, next⟩, status, learned, statistics, skip⟩ := h
  obtain ⟨var, consumed, policy⟩ := x
  obtain ⟨var', consumed', policy'⟩ := x'
  have related := Trail.Like.intro applied causes entries
  cases consumed <;> cases consumed' <;> exact .intro (.intro related _ _ _) _ _ _ _

theorem withStatus (h : s.Like same s') (status : Status) :
    Solver.Like same { s with status := status } { s' with status := status } := by
  cases h with
  | intro h => exact .intro h _ _ _ _

theorem withStatistics (h : s.Like same s') (statistics : Statistics) :
    Solver.Like same { s with statistics := statistics } { s' with statistics := statistics } := by
  cases h with
  | intro h => exact .intro h _ _ _ _

/-- What is reported of a problem without a solution is the same. -/
theorem refute_eq (h : s.Like same s') (c : ClauseRef) : s'.refute c = s.refute c := by
  have uip := h.propagation.firstUip_eq
  obtain ⟨⟨⟨h, causes, entries⟩, clauses, watches, next⟩, status, learned, statistics, skip⟩ := h
  simp only [Solver.refute, Solver.rootClause?, uip]
  rfl

section Kept

variable (kept : Assignment.Kept same)
include kept

theorem isComplete_eq (h : s.Like same s') : s'.isComplete = s.isComplete := by
  have resembles := kept.resembles h.assignment
  rw [Solver.isComplete, Solver.isComplete, resembles.numAssigned_eq, resembles.numVariables_eq]

theorem isUnassigned_eq (h : s.Like same s') (v : Var) :
    s'.assignment.isUnassigned v = s.assignment.isUnassigned v :=
  congrArg (fun state => (state v).isUnassigned) (kept.resembles h.assignment).state_eq

theorem propagate (h : s.Like same s') : Alike (Solver.Like same) s.propagate s'.propagate := by
  unfold Solver.propagate
  rw [h.trail.length_eq]
  obtain ⟨h, status, learned, statistics, skip⟩ := h
  refine (h.propagate kept).bind fun (c, p) (c', p') ⟨e, h⟩ => ?_
  obtain rfl : c = c' := e
  dsimp only
  rw [h.trail.length_eq]
  refine Alike.bind_same fun grown => ?_
  cases c with
  | none => exact .intro h _ _ _ _
  | some c => exact Alike.bind_same fun _ => .intro h _ _ _ _

theorem cancelUntil (h : s.Like same s') (k : Nat) :
    Alike (Solver.Like same) (s.cancelUntil k) (s'.cancelUntil k) := by
  obtain ⟨h, status, learned, statistics, skip⟩ := h
  exact (h.cancelUntil kept k).bind fun _ _ h => .intro h _ _ _ _

theorem leave (h : s.Like same s') (status : Status) :
    Alike (Solver.Like same) (s.leave status) (s'.leave status) :=
  (h.withStatus status).cancelUntil kept 0

theorem decideOn (h : s.Like same s') (v : Var) (polarity : Bool) :
    Alike (Solver.Like same) (s.decideOn v polarity) (s'.decideOn v polarity) := by
  have assume : ∀ l, Alike (Solver.Like same) (s.assume l) (s'.assume l) := by
    intro l
    obtain ⟨⟨h, clauses, watches, next⟩, status, learned, statistics, skip⟩ := h
    simp only [Solver.assume, h.isOpen_eq kept]
    split
    · rfl
    · refine (h.openLevel.enqueue kept l none).bind fun _ _ h => ?_
      exact .intro (.intro h.2 _ _ _) _ _ _ _
  unfold Solver.decideOn
  split
  · rfl
  · refine (assume _).bind fun s s' h => ?_
    rw [h.statistics_eq]
    exact h.withStatistics _

theorem record (h : s.Like same s') (d : Learned) :
    Alike (Solver.Like same) (s.record d) (s'.record d) := by
  obtain ⟨h, status, learned, statistics, skip⟩ := h
  simp only [Solver.record, h.trail.watchOrder_eq, h.trail.hasLevel_eq]
  split
  · rfl
  refine (h.learn _).bind fun (r, p) (r', p') ⟨e, h⟩ => ?_
  obtain rfl : r = r' := e
  refine (h.enqueue kept d.asserting (some r)).bind fun (b, p) (b', p') ⟨e, h⟩ => ?_
  obtain rfl : b = b' := e
  dsimp only
  split
  · exact .intro h _ _ _ _
  · rfl

theorem resolveConflict (h : s.Like same s') (c : ClauseRef) :
    Alike (Solver.Like same) (s.resolveConflict c) (s'.resolveConflict c) := by
  unfold Solver.resolveConflict
  rw [h.propagation.firstUip_eq, h.statistics_eq, h.level_eq]
  refine Alike.bind_same fun d => Alike.bind_same fun statistics => ?_
  exact (h.cancelUntil kept d.backjump).bind fun _ _ h =>
    (h.withStatistics statistics).record kept d

/-- A conflict ends the search with the same refutation or leaves related solvers. -/
theorem onConflict (h : s.Like same s') (c : ClauseRef) :
    Alike (fun x x' => Option.Rel (Verdict.Like same) x.1 x'.1 ∧ x.2.Like same x'.2)
      (s.onConflict c) (s'.onConflict c) := by
  unfold Solver.onConflict
  rw [h.atRoot_eq, h.status_eq]
  split
  · refine Alike.bind_same fun status => ?_
    dsimp only
    rw [(h.withStatus status).refute_eq]
    exact Alike.bind_same fun w => ⟨.some (.unsatisfiable w), h.withStatus status⟩
  · refine (h.resolveConflict kept c).bind fun s s' h => ?_
    rw [h.status_eq]
    exact Alike.bind_same fun status => ⟨.none, h.withStatus status⟩

/-- The solutions are the assignments. -/
theorem succeed (h : s.Like same s') :
    Alike (fun x x' => x.1.Like same x'.1 ∧ x.2.Like same x'.2) s.succeed s'.succeed := by
  unfold Solver.succeed
  rw [h.status_eq]
  refine Alike.bind_same fun status => ?_
  exact (h.leave kept status).bind fun _ _ left => ⟨.satisfiable h.assignment, left⟩

end Kept

end Solver.Like

end ClauseLearning
