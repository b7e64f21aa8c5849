/-
  What a round has done.

  Model. A round that goes on has learned from a conflict or made a decision (`Search.GoesOn`). One
  that ends the search was stopped, has refuted the problem or has found a solution
  (`Search.Answers`). Each case comes with the operations the round was made of and what they
  gave.

  Rule. `Search.cases_of_round`: these are all rounds that meet no fault.
-/
import ClauseLearning.Proofs.Solver.Round

namespace ClauseLearning

/-- Learning that has met no fault has made progress. -/
theorem Solver.Propagated.resolved {s s' s'' : Solver} {c : ClauseRef} (after : s.Propagated s')
    (conflict : s'.status = .conflicting c) (above : s'.trail.atRoot = false)
    (e : s'.resolveConflict c = .ok s'') : s'.Resolved s'' := by
  obtain ⟨conflicts, n, current, watchful⟩ := after.conflicts conflict
  have pos := level_pos above
  obtain ⟨d, analysis, asserts⟩ := Propagation.firstUip_yields after.sound.grounded conflicts
  have below := Nat.le_of_lt (asserts.backjump_lt pos)
  rcases countLearned_cases s'.statistics s'.level below with ⟨st, counts⟩ | ⟨overflow, -⟩
  · exact (resolveConflict_yields after.sound pos after.done current watchful analysis asserts
      counts).of_ok e
  · cases (resolveConflict_overflow analysis overflow).symm.trans e

/-- Propagation that has met no conflict goes on with the search. -/
theorem Solver.Propagated.searching {s s' : Solver} (after : s.Propagated s')
    (open' : ∀ c, s'.status ≠ .conflicting c) : s'.Searching := by
  rcases after.outcome with searching | ⟨c, status, -⟩
  · exact searching
  · exact absurd status (open' c)

/-! ## The parts of a round -/

namespace Solver

variable {s s' : Solver}

/-- Propagation counts literals and conflicts. -/
theorem statistics_of_propagate (e : s.propagate = .ok s') : ∃ conflicts propagations,
    s'.statistics =
      { s.statistics with conflicts := conflicts, propagations := propagations } := by
  obtain ⟨status, p, learned, statistics, skip⟩ := s
  obtain ⟨⟨conflict, p'⟩, -, e⟩ := Yields.exists_of_bind e
  obtain ⟨grown, -, e⟩ := Yields.exists_of_bind e
  cases conflict with
  | none =>
    cases e
    exact ⟨_, _, rfl⟩
  | some c =>
    obtain ⟨status', -, e⟩ := Yields.exists_of_bind e
    cases e
    exact ⟨_, _, rfl⟩

/-- A decision changes the state of propagation, but no clause, and is counted. -/
theorem exists_of_decideOn {v : Var} {polarity : Bool} (e : s.decideOn v polarity = .ok s') :
    ∃ p : Propagation, p.clauses = s.clauses ∧ s' = ⟨s.status, p, s.learned,
      { s.statistics with decisions := s.statistics.decisions + 1 }, s.skipTautologies⟩ := by
  unfold decideOn at e
  split at e
  · cases e
  · obtain ⟨s'', assumed, e⟩ := Yields.exists_of_bind e
    cases e
    obtain ⟨status, p, learned, statistics, skip⟩ := s
    unfold assume at assumed
    dsimp only at assumed
    split at assumed
    · cases assumed
    · obtain ⟨x, -, assumed⟩ := Yields.exists_of_bind assumed
      cases assumed
      refine ⟨_, ?_, rfl⟩
      rfl

/-- Going back changes the state of propagation only. -/
theorem learned_of_cancelUntil {k : Nat} (e : s.cancelUntil k = .ok s') :
    s'.learned = s.learned ∧ s'.statistics = s.statistics ∧ s'.status = s.status := by
  obtain ⟨status, p, learned, statistics, skip⟩ := s
  obtain ⟨p', -, e⟩ := Yields.exists_of_bind e
  cases e
  exact ⟨rfl, rfl, rfl⟩

/-- A search that ends leaves the clauses, what was learned and what was counted. -/
theorem learned_of_leave {status : Status} (h : s.Searching) (open' : status.infeasible? = none)
    (left : s.leave status = .ok s') :
    s'.learned = s.learned ∧ s'.clauses = s.clauses ∧ s'.statistics = s.statistics := by
  obtain ⟨-, -, clauses, -⟩ := (leave_yields h.toSound h.watchful status open').of_ok left
  obtain ⟨learned, statistics, -⟩ := learned_of_cancelUntil left
  exact ⟨learned, clauses, statistics⟩

/-- What is counted of a learned clause is neither a decision nor a conflict. -/
theorem counts_of_countLearned {st st' : Statistics} {level : Nat} {d : Learned}
    (e : countLearned st level d = .ok st') :
    st'.decisions = st.decisions ∧ st'.conflicts = st.conflicts := by
  obtain ⟨lengths, -, e⟩ := Yields.exists_of_bind e
  obtain ⟨gone, -, e⟩ := Yields.exists_of_bind e
  obtain ⟨backtrack, -, e⟩ := Yields.exists_of_bind e
  cases e
  exact ⟨rfl, rfl⟩

end Solver

/-! ## The round -/

namespace Search

variable {π β : Type} [Policy π] [Termination β]

/-- The round has led from the first search to the second. -/
inductive GoesOn (q : Search π β) : Search π β → Prop
  /-- A clause is learned from a conflict above the root. -/
  | learns {s s' : Solver} {c : ClauseRef} {status : Status}
    (goesOn : (Termination.poll q.budget).1 = false) (propagated : q.solver.propagate = .ok s)
    (conflict : s.status = .conflicting c) (above : s.trail.atRoot = false)
    (resolved : s.resolveConflict c = .ok s') (starts : s'.status.start = .ok status) :
    GoesOn q ⟨{ s' with status := status }, q.policy, (Termination.poll q.budget).2⟩
  /-- The policy names an unassigned variable, which is decided on. -/
  | decides {s s' : Solver} {a : Suggestion π} {v : Var} (asks : q.Asks s)
    (answer : Policy.next q.policy s.assignment s.clauses = .ok a) (named : a.var? = some v)
    (unassigned : s.assignment.isUnassigned v = true)
    (decided : (s.noteConsumed a.consumed).decideOn v (Policy.polarity a.policy v) = .ok s') :
    GoesOn q ⟨s', a.policy, Termination.spend (Termination.poll q.budget).2⟩

/-- The round has ended the search with the outcome. -/
inductive Answers (q : Search π β) : Outcome π → Prop
  /-- The condition has stopped the search. -/
  | stops {s : Solver} {status : Status} (stopped : (Termination.poll q.budget).1 = true)
    (stops : q.solver.status.stop = .ok status) (left : q.solver.leave status = .ok s) :
    Answers q ⟨.unknown, s, q.policy⟩
  /-- There was a conflict at the root. -/
  | refutes {s : Solver} {c : ClauseRef} {status : Status} {w : Refutation}
    (goesOn : (Termination.poll q.budget).1 = false) (propagated : q.solver.propagate = .ok s)
    (conflict : s.status = .conflicting c) (root : s.trail.atRoot = true)
    (fails : s.status.fail c = .ok status)
    (refuted : Solver.refute { s with status := status } c = .ok w) :
    Answers q ⟨.unsatisfiable w, { s with status := status }, q.policy⟩
  /-- All variables have values and there is no conflict. -/
  | succeeds {s s' : Solver} {status : Status} (goesOn : (Termination.poll q.budget).1 = false)
    (propagated : q.solver.propagate = .ok s) (open' : ∀ c, s.status ≠ .conflicting c)
    (complete : s.isComplete = true) (finishes : s.status.finish = .ok status)
    (left : s.leave status = .ok s') : Answers q ⟨.satisfiable ⟨s.assignment⟩, s', q.policy⟩

variable {q : Search π β} {s : Solver}

/-- What a decision has done. -/
theorem goesOn_of_decide {q' : Search π β} (asks : q.Asks s)
    (e : decide ⟨s, q.policy, (Termination.poll q.budget).2⟩ = .ok q') : q.GoesOn q' := by
  obtain ⟨_, -, e⟩ := Yields.exists_of_bind e
  obtain ⟨a, answer, e⟩ := Yields.exists_of_bind e
  cases named : a.var? with
  | none =>
    rw [named] at e
    cases e
  | some v =>
    rw [named] at e
    dsimp only at e
    split at e
    · cases e
    · rename_i unassigned
      obtain ⟨s', decided, e⟩ := Yields.exists_of_bind e
      cases e
      exact .decides asks answer named (by simpa using unassigned) decided

/-- What a round has done that met no fault. -/
theorem cases_of_round {r : Round (Search π β) (Outcome π)} (e : q.round = .ok r) :
    match r with
    | .more q' => q.GoesOn q'
    | .done o => q.Answers o := by
  obtain ⟨solver, policy, budget⟩ := q
  unfold round at e
  dsimp only at e
  split at e
  · rename_i stopped
    obtain ⟨status, stops, e⟩ := Yields.exists_of_bind e
    obtain ⟨s, left, e⟩ := Yields.exists_of_bind e
    cases e
    exact .stops stopped stops left
  · rename_i goesOn
    rw [Bool.not_eq_true] at goesOn
    obtain ⟨s, propagated, e⟩ := Yields.exists_of_bind e
    split at e
    · rename_i c conflict
      obtain ⟨⟨verdict, s'⟩, dealt, e⟩ := Yields.exists_of_bind e
      unfold Solver.onConflict at dealt
      split at dealt
      · rename_i root
        obtain ⟨status, fails, dealt⟩ := Yields.exists_of_bind dealt
        obtain ⟨w, refuted, dealt⟩ := Yields.exists_of_bind dealt
        cases dealt
        cases e
        exact .refutes goesOn propagated conflict root fails refuted
      · rename_i above
        obtain ⟨s'', resolved, dealt⟩ := Yields.exists_of_bind dealt
        obtain ⟨status, starts, dealt⟩ := Yields.exists_of_bind dealt
        cases dealt
        cases e
        exact .learns goesOn propagated conflict (by simpa using above) resolved starts
    · rename_i open'
      split at e
      · rename_i complete
        obtain ⟨⟨verdict, s'⟩, success, e⟩ := Yields.exists_of_bind e
        obtain ⟨status, finishes, success⟩ := Yields.exists_of_bind success
        obtain ⟨s'', left, success⟩ := Yields.exists_of_bind success
        cases success
        cases e
        exact .succeeds goesOn propagated open' complete finishes left
      · rename_i incomplete
        obtain ⟨q', decided, e⟩ := Yields.exists_of_bind e
        cases e
        exact goesOn_of_decide ⟨goesOn, propagated, open', by simpa using incomplete⟩ decided

end Search

end ClauseLearning
