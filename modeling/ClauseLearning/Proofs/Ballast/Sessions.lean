/-
  Whether clauses that are always true are skipped cannot be seen.

  Model. In a session a solver is called with priority queues and termination conditions at hand,
  which live on from search to search and may be changed in between (`Command`). A session is seen
  through its replies: after every call what came of it, a refutation as its text, and what the
  solver counts and has learned. A call that meets a fault is the last one.

  Rule. `replies_skipTautologies`: a solver that skips such clauses and one that keeps them give the
  same replies to the same calls. For with every kept clause the names of the later ones move, and
  under these names the second solver stays the first one laden (`Session.Laden`).
-/
import ClauseLearning.Policy.Lowest
import ClauseLearning.Policy.RankedQueue
import ClauseLearning.Proofs.Ballast.Search

namespace ClauseLearning

/-- A solver with priority queues and termination conditions. -/
structure Session (β : Type) where
  /-- The solver. -/
  solver : Solver
  /-- The queues by number. -/
  queues : Nat → RankedQueue
  /-- The conditions by number. -/
  conditions : Nat → β

/-- A call in a session. -/
inductive Command (β : Type) where
  /-- Registers a variable. -/
  | register (v : Var)
  /-- Adds a clause with the rule it comes from. -/
  | add (ls : List Lit) (provenance : Option String)
  /-- Changes a queue, or replaces it. -/
  | changeQueue (i : Nat) (change : RankedQueue → RankedQueue)
  /-- Changes a condition, or replaces it. -/
  | changeCondition (j : Nat) (change : β → β)
  /-- Searches under a condition with the lowest unassigned variable as every decision. -/
  | solveLowest (j : Nat)
  /-- Searches under a condition with the decisions of a queue. -/
  | solveRanked (i j : Nat)

/-- What came of a call. -/
inductive Result where
  /-- There is nothing to say. -/
  | done
  /-- A clause was added, unless there is an error. -/
  | added (error? : Option AddError)
  /-- There is a solution. -/
  | solution (s : Solution)
  /-- There is none, with the text that says why. -/
  | refuted (text : Except Fault String)
  /-- The search has given up. -/
  | unknown

/-- The answer of a search, with the text of a refutation. -/
def Verdict.result : Verdict → Result
  | satisfiable s => .solution s
  | unsatisfiable w => .refuted w.text
  | unknown => .unknown

/-- What is seen of a session after a call. -/
structure Reply where
  /-- What came of the call. -/
  result : Result
  /-- The number of decisions so far. -/
  decisions : Nat
  /-- The number of conflicts so far. -/
  conflicts : Nat
  /-- The learned clauses, in the order in which they were learned. -/
  learned : List (List Lit)

variable {β : Type} [Termination β]

open Function (update)

/-- What comes of a call, with the session after it. -/
def Command.run (s : Session β) : Command β → Except Fault (Result × Session β)
  | register v => do return (.done, { s with solver := ← s.solver.register v })
  | add ls provenance => do
    let (a, solver) ← s.solver.add ls provenance
    return (.added a.error?, { s with solver := solver })
  | changeQueue i change =>
    .ok (.done, { s with queues := update s.queues i (change (s.queues i)) })
  | changeCondition j change =>
    .ok (.done, { s with conditions := update s.conditions j (change (s.conditions j)) })
  | solveLowest j => do
    let (o, b) ← s.solver.solveLeaving (s.conditions j) (default : LowestFirst)
    return (o.verdict.result, ⟨o.solver, s.queues, update s.conditions j b⟩)
  | solveRanked i j => do
    let (o, b) ← s.solver.solveLeaving (s.conditions j) (s.queues i)
    return (o.verdict.result, ⟨o.solver, update s.queues i o.policy, update s.conditions j b⟩)

namespace Session

/-- What is seen after a call with the given result. -/
def reply (s : Session β) (r : Result) : Reply :=
  ⟨r, s.solver.statistics.decisions, s.solver.statistics.conflicts, s.solver.learnedClauses⟩

/-- The replies to calls one after the other, up to the first fault. -/
def replies (s : Session β) : List (Command β) → List (Except Fault Reply)
  | [] => []
  | c :: calls =>
    match c.run s with
    | .error e => [.error e]
    | .ok (r, s) => .ok (s.reply r) :: s.replies calls

/-- The second session is the first one with a laden solver, both between searches. -/
structure Laden (s s' : Session β) : Prop where
  /-- The solvers, under some names. -/
  solver : ∃ f, s.solver.Laden f s'.solver
  /-- The queues. -/
  queues : s'.queues = s.queues
  /-- The conditions. -/
  conditions : s'.conditions = s.conditions
  /-- The first solver is not at work. -/
  rests : s.solver.Resting
  /-- Neither is the second one. -/
  rests' : s'.solver.Resting

end Session

/-! ## The policies -/

theorem ignoresClauses_lowestFirst : Policy.IgnoresClauses LowestFirst := fun _ _ _ _ => rfl

theorem ignoresClauses_rankedQueue : Policy.IgnoresClauses RankedQueue := fun _ _ _ _ => rfl

/-! ## One call -/

theorem Verdict.Laden.result_eq {f : ClauseRef → ClauseRef} {v v' : Verdict} (h : v.Laden f v') :
    v'.result = v.result := by
  cases h with
  | satisfiable sol => rfl
  | unsatisfiable h => exact congrArg Result.refuted h.text_eq
  | unknown => rfl

namespace Session.Laden

variable {s s' : Session β}

/-- A search ends with the same result. -/
theorem solve {π : Type} [Policy π] (blind : Policy.IgnoresClauses π) (h : s.Laden s')
    (budget : β) (policy : π) :
    Alike (fun x x' => x'.1.verdict.result = x.1.verdict.result ∧ x'.1.policy = x.1.policy ∧
        x'.2 = x.2 ∧ ∀ (queues : Nat → RankedQueue) (conditions : Nat → β),
          Session.Laden ⟨x.1.solver, queues, conditions⟩ ⟨x'.1.solver, queues, conditions⟩)
      (s.solver.solveLeaving budget policy) (s'.solver.solveLeaving budget policy) := by
  obtain ⟨f, laden⟩ := h.solver
  refine (laden.solveLeaving blind h.rests'.toIdle budget policy).and_eq.mono ?_
  rintro x x' ⟨⟨outcome, condition⟩, e, e'⟩
  refine ⟨outcome.verdict.result_eq, outcome.policy, condition, fun _ _ => ?_⟩
  have rests := h.rests.solve (Solver.solve_of_solveLeaving e)
  exact ⟨⟨f, outcome.solver⟩, rfl, rfl, rests, h.rests'.solve (Solver.solve_of_solveLeaving e')⟩

/-- What comes of a call is the same. -/
theorem run (h : s.Laden s') (c : Command β) :
    Alike (Beside Session.Laden) (c.run s) (c.run s') := by
  obtain ⟨f, laden⟩ := h.solver
  cases c with
  | register v =>
    refine (laden.register v).and_eq.bind ?_
    rintro t t' ⟨laden, e, e'⟩
    refine And.intro rfl ⟨⟨f, laden⟩, h.queues, h.conditions, ?_, h.rests'.register e'⟩
    exact h.rests.register e
  | add ls provenance =>
    refine (laden.add h.rests h.rests'.toIdle ls provenance).and_eq.bind ?_
    rintro ⟨a, t⟩ ⟨a', t'⟩ ⟨⟨added, g, laden⟩, e, e'⟩
    refine ⟨congrArg Result.added added.symm, ⟨g, laden⟩, h.queues, h.conditions, ?_, ?_⟩
    · exact h.rests.add e
    · exact h.rests'.add e'
  | changeQueue i change =>
    refine And.intro rfl ⟨⟨f, laden⟩, ?_, h.conditions, h.rests, h.rests'⟩
    rw [h.queues]
  | changeCondition j change =>
    refine And.intro rfl ⟨⟨f, laden⟩, h.queues, ?_, h.rests, h.rests'⟩
    rw [h.conditions]
  | solveLowest j =>
    unfold Command.run
    rw [h.queues, h.conditions]
    refine (h.solve ignoresClauses_lowestFirst (s.conditions j) default).bind ?_
    rintro ⟨o, b⟩ ⟨o', _⟩ ⟨result, -, rfl, laden⟩
    exact ⟨result.symm, laden _ _⟩
  | solveRanked i j =>
    unfold Command.run
    rw [h.queues, h.conditions]
    refine (h.solve ignoresClauses_rankedQueue (s.conditions j) (s.queues i)).bind ?_
    rintro ⟨o, b⟩ ⟨o', _⟩ ⟨result, policy, rfl, laden⟩
    dsimp only
    rw [policy]
    exact ⟨result.symm, laden _ _⟩

omit [Termination β] in
theorem reply_eq (h : s.Laden s') (r : Result) : s'.reply r = s.reply r := by
  obtain ⟨f, laden⟩ := h.solver
  rw [reply, laden.statistics_eq, laden.learnedClauses_eq]
  rfl

end Session.Laden

/-! ## The session -/

theorem Session.Laden.replies_eq {s s' : Session β} (h : s.Laden s') (calls : List (Command β)) :
    s'.replies calls = s.replies calls := by
  induction calls generalizing s s' with
  | nil => rfl
  | cons c calls ih =>
    rw [Session.replies, Session.replies]
    rcases (h.run c).results with ⟨fault, e, e'⟩ | ⟨⟨r, t⟩, ⟨_, t'⟩, e, e', rfl, laden⟩
    · rw [e, e']
    · rw [e, e']
      dsimp only
      rw [laden.reply_eq, ih laden]

/-- Whether the solver skips the clauses that are always true cannot be seen from the replies. -/
theorem replies_skipTautologies (queues : Nat → RankedQueue) (conditions : Nat → β)
    (calls : List (Command β)) :
    Session.replies ⟨.new true, queues, conditions⟩ calls =
      Session.replies ⟨.new false, queues, conditions⟩ calls := by
  have start : Session.Laden ⟨.new true, queues, conditions⟩ ⟨.new false, queues, conditions⟩ :=
    ⟨⟨id, .new⟩, rfl, rfl, Solver.resting_new true, Solver.resting_new false⟩
  exact (start.replies_eq calls).symm

end ClauseLearning
