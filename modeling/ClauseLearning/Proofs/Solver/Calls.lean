/-
  Sequences of calls.

  Model. A solver is called to register a variable, to add a clause or to search, and every search
  has a policy and a termination condition of its own (`Call`). Whatever an operation checks, each
  place it reads and each number it takes from another has a `Fault` of its own, so that a
  sequence of calls that gives a solver has passed all checks.

  A call is proper when its variables have literals, when the policy of a search names an
  unassigned variable whenever it is asked, and when no round of the search is out of room in the
  64-bit words of the statistics (`Call.Proper`).

  Rule. `runAll_succeeds`: proper calls meet no fault, in any number and order. In every conflict
  of their searches a literal of the current level is found, no literal without a reason is
  resolved away, and the asserting literal is not false after going back.
-/
import ClauseLearning.Proofs.Solver.Accrual
import ClauseLearning.Proofs.Solver.Served

namespace ClauseLearning

open Round (Steps)

/-- Whenever the search asks the policy, it names an unassigned variable, and no round is out of
    room in the counters. -/
def Search.Proper {π β : Type} [Policy π] [Termination β] (q : Search π β) : Prop :=
  ∀ n q', Steps round n q q' → (∀ s, q'.Asks s → Named q'.policy s) ∧ ¬ q'.Overflows

/-- A call on a solver. -/
inductive Call : Type 1 where
  /-- Registers a variable. -/
  | register (v : Var)
  /-- Adds a clause with the rule it comes from. -/
  | add (ls : List Lit) (provenance : Option String)
  /-- Searches with a policy until the condition says to stop. -/
  | solve {π β : Type} [Policy π] [Termination β] (budget : β) (policy : π)

namespace Call

/-- The solver after a call. -/
def run (s : Solver) : Call → Except Fault Solver
  | register v => s.register v
  | add ls provenance => do return (← s.add ls provenance).2
  | solve budget policy => do return (← s.solve budget policy).solver

/-- The solver after calls, one after the other. -/
def runAll (s : Solver) (calls : List Call) : Except Fault Solver := calls.foldlM run s

/-- The call keeps to the rules, on the given solver. -/
def Proper (s : Solver) : Call → Prop
  | register v => v < Lit.varBound
  | add ls _ => ∀ l ∈ ls, l.var < Lit.varBound
  | solve budget policy => s.status.infeasible? = none → (Search.begun s budget policy).Proper

/-- Every call keeps to the rules, on the solver that those before it leave. -/
def AllProper (s : Solver) : List Call → Prop
  | [] => True
  | c :: cs => c.Proper s ∧ ∀ s', c.run s = .ok s' → AllProper s' cs

end Call

/-! ## What a search meets -/

namespace Solver

variable {s s' : Solver} {c : ClauseRef}

/-- The conflict with the clause `c` is analysed. One of its literals is of the current level, the
    analysis passes no literal without a reason, and above the root the asserting literal is not
    false at the level to which the learned clause leads back. -/
def Analyses (s : Solver) (c : ClauseRef) : Prop :=
  (∃ clause l, s.clauses.get? c = some clause ∧ l ∈ clause.literals ∧
    s.trail.levelOf l.var = s.level) ∧
  ∃ d, s.propagation.firstUip c = .ok d ∧ (0 < s.level → d.backjump < s.level ∧
    ∃ s', s.cancelUntil d.backjump = .ok s' ∧ s'.trail.isFalse d.asserting = false)

/-- A conflict that propagation meets is analysed. -/
theorem Propagated.analyses (after : s.Propagated s') (status : s'.status = .conflicting c) :
    s'.Analyses c := by
  obtain ⟨conflict, n, current, watchful⟩ := after.conflicts status
  obtain ⟨clause, hc, -, l, hl, level⟩ := id conflict
  refine ⟨⟨clause, l, hc, hl, level⟩, ?_⟩
  obtain ⟨d, analysis, asserts⟩ := Propagation.firstUip_yields after.sound.grounded conflict
  refine ⟨d, analysis, fun above => ?_⟩
  have low : d.backjump < s'.level := asserts.backjump_lt above
  have start : s'.trail.startOf d.backjump ≤ n := current _ (Trail.Decided.startOf_mem low)
  refine ⟨low, ?_⟩
  obtain ⟨s'', left, p', rfl, -, watchful', back, -⟩ :=
    cancelUntil_yields after.sound watchful (Nat.le_of_lt low)
      (Nat.le_trans (Nat.min_le_right ..) start)
  have learnable := asserts.learnable after.sound.grounded above back watchful'
  refine ⟨_, left, Bool.eq_false_iff.2 fun false => ?_⟩
  exact learnable.notFalse (watchful'.trail.isFalse_iff.1 false)

variable {π β : Type} [Policy π] [Termination β] {budget : β} {policy : π}

/-- A search that keeps to the rules gives an answer. -/
theorem solve_yields (h : s.Idle)
    (proper : s.status.infeasible? = none → (Search.begun s budget policy).Proper) :
    Yields (s.solve budget policy) fun o => o.solver.Idle := by
  cases hc : s.status.infeasible? with
  | some c =>
    obtain ⟨w, e, -⟩ := solve_infeasible h hc budget policy
    exact .of_eq e h
  | none =>
    have begins := h.searching hc
    rw [solve_eq hc]
    obtain ⟨n, q, steps, ⟨o, last, e⟩ | ⟨f, last, -⟩⟩ :=
      Search.run_halts (q := Search.begun s budget policy) begins
    · exact .of_eq e (Search.run_answers begins e).1
    · obtain ⟨names, roomy⟩ := proper hc n q steps
      have fails := Search.round_ends (Search.searching_of_steps begins steps).1
      rw [last] at fails
      cases fails with
      | overflow full => exact absurd full roomy
      | policy asks no => exact absurd (names _ asks) no

end Solver

/-! ## Whole sequences -/

variable {skip : Bool} {h : List Event} {s s' : Solver} {c : Call} {calls : List Call}

namespace Call

theorem runAll_cons (s : Solver) (c : Call) (calls : List Call) :
    runAll s (c :: calls) = c.run s >>= (runAll · calls) := List.foldlM_cons ..

theorem runAll_cons_of (e : c.run s = .ok s') : runAll s (c :: calls) = runAll s' calls := by
  rw [runAll_cons, e]
  rfl

/-- A proper call meets no fault. -/
theorem run_yields (h : s.Idle) (proper : c.Proper s) : Yields (c.run s) Solver.Idle := by
  cases c with
  | register v => exact (Solver.register_yields h proper).mono fun _ kept => kept.1
  | add ls provenance =>
    exact (Solver.add_yields h ls provenance fun _ => proper).bind fun _ kept => .pure kept.1
  | solve budget policy => exact (Solver.solve_yields h proper).bind fun _ kept => .pure kept

/-- Proper calls meet no fault. -/
theorem runAll_yields (h : s.Idle) (proper : AllProper s calls) :
    Yields (runAll s calls) Solver.Idle := by
  induction calls generalizing s with
  | nil => exact .ok h
  | cons c calls ih =>
    obtain ⟨first, rest⟩ := proper
    obtain ⟨s', e, idle⟩ := run_yields h first
    rw [runAll_cons, e]
    exact .ok_bind (ih idle (rest s' e))

end Call

/-- A call makes a history one event longer. -/
theorem Reached.run (run : Reached skip h s) (e : c.run s = .ok s') : ∃ h', Reached skip h' s' := by
  cases c with
  | register v => exact ⟨_, run.register e⟩
  | add ls provenance =>
    obtain ⟨x, added, e⟩ := Yields.exists_of_bind e
    cases e
    exact ⟨_, run.add added⟩
  | solve budget policy =>
    obtain ⟨o, solved, e⟩ := Yields.exists_of_bind e
    cases e
    exact ⟨_, run.solve solved⟩

/-- Calls make a history. -/
theorem Reached.runAll (run : Reached skip h s) (e : Call.runAll s calls = .ok s') :
    ∃ h', Reached skip h' s' := by
  have keeps : ∀ (s : Solver) (c : Call) s', (∃ h, Reached skip h s) → c.run s = .ok s' →
      ∃ h, Reached skip h s' := by
    rintro s c s' ⟨h, run⟩ e
    exact run.run e
  exact Yields.keeps_of_foldlM keeps ⟨h, run⟩ e

/-- Proper calls on a new solver meet no fault, whatever their number and order. In particular
    every conflict met in the rounds of one of their searches is analysed. -/
theorem runAll_succeeds (proper : Call.AllProper (.new skip) calls) :
    (∃ s, Call.runAll (.new skip) calls = .ok s) ∧
    ∀ (done rest : List Call) {π β : Type} [Policy π] [Termination β] (budget : β) (policy : π),
      calls = done ++ .solve budget policy :: rest →
      ∀ s, Call.runAll (.new skip) done = .ok s → s.status.infeasible? = none →
      ∀ n q s' c, Steps Search.round n (Search.begun s budget policy) q →
        q.solver.propagate = .ok s' → s'.status = .conflicting c → s'.Analyses c := by
  refine ⟨?_, fun done rest π β _ _ budget policy _ s e feasible n q s' c steps propagated
    conflict => ?_⟩
  · obtain ⟨s, e, -⟩ := Call.runAll_yields (Solver.idle_new skip) proper
    exact ⟨s, e⟩
  · obtain ⟨h, run⟩ := Reached.start.runAll e
    obtain ⟨searching, -⟩ := Search.searching_of_steps (run.idle.searching feasible) steps
    exact ((Solver.propagate_yields searching).of_ok propagated).analyses conflict

/-- A search whose policy names a variable whenever it is asked keeps to the rules as long as the
    clauses are few. -/
theorem Passes.proper {π β : Type} [Policy π] [Termination β] {q : Search π β} {g : Log}
    (run : Passes skip g .searching q.solver) (few : q.FewClauses)
    (names : ∀ n q' s, Steps Search.round n q q' → q'.Asks s → Search.Named q'.policy s) :
    q.Proper :=
  fun n q' steps => ⟨fun s asks => names n q' s steps asks, run.not_overflows few n q' steps⟩

/-- After any history, a search keeps to the rules over few variables and clauses, if its policy
    names a variable whenever it is asked. -/
theorem Reached.proper_of_few {π β : Type} [Policy π] [Termination β] {budget : β} {policy : π}
    (run : Reached skip h s) {n m : Nat}
    (few : (s.assignment.numVariables, s.clauses.size) = (n, m)) (small : m + 3 ^ n ≤ ClauseRef.bound)
    (names : ∀ (q : Search π β) s, q.solver.Searching → q.Asks s → Search.Named q.policy s)
    (feasible : s.status.infeasible? = none) : (Search.begun s budget policy).Proper := by
  obtain ⟨g, begins⟩ := Passes.of_begun run feasible budget policy
  have searching := run.idle.searching feasible
  rw [Prod.mk.injEq] at few
  obtain ⟨rfl, rfl⟩ := few
  refine begins.proper (begins.fewClauses small) fun k q s steps asks => ?_
  exact names q s (Search.searching_of_steps searching steps).1 asks

/-- A search that decides on the lowest variable keeps to the rules over few variables and
    clauses. -/
theorem Call.proper_lowestFirst {β : Type} [Termination β] {n m : Nat}
    (reached : runAll (.new skip) calls = .ok s)
    (few : (runAll (.new skip) calls).map (fun s =>
      (s.assignment.numVariables, s.clauses.size)) = .ok (n, m))
    (small : m + 3 ^ n ≤ ClauseRef.bound) (budget : β) :
    (solve budget LowestFirst.mk).Proper s := by
  obtain ⟨h, run⟩ := Reached.start.runAll reached
  have few := (Yields.of_map few).of_ok reached
  exact run.proper_of_few few small fun _ _ searching asks => asks.named_lowestFirst searching

theorem runAll_succeeds_eight_calls : ∃ calls : List Call,
    calls = [.register 3, .add [⟨1, true⟩, ⟨2, true⟩] none, .add [⟨1, true⟩, ⟨2, false⟩] none,
      .solve (Budget.ofDecisions 1) LowestFirst.mk, .add [⟨1, false⟩, ⟨2, true⟩] (some "a rule"),
      .add [⟨1, false⟩, ⟨2, false⟩] none, .solve Budget.unlimited LowestFirst.mk,
      .add [⟨4, true⟩] none] ∧
    Call.AllProper (.new true) calls ∧
    (∃ s, Call.runAll (.new true) calls = .ok s) ∧
    ∀ (done rest : List Call) {π β : Type} [Policy π] [Termination β] (budget : β) (policy : π),
      calls = done ++ .solve budget policy :: rest →
      ∀ s, Call.runAll (.new true) done = .ok s → s.status.infeasible? = none →
      ∀ n q s' c, Steps Search.round n (Search.begun s budget policy) q →
        q.solver.propagate = .ok s' → s'.status = .conflicting c → s'.Analyses c := by
  have bounded : ∀ ls : List Lit, (ls.all fun l => l.var < Lit.varBound) = true →
      ∀ l ∈ ls, l.var < Lit.varBound := fun ls all => by simpa using all
  have proper : Call.AllProper (.new true) [.register 3, .add [⟨1, true⟩, ⟨2, true⟩] none,
      .add [⟨1, true⟩, ⟨2, false⟩] none, .solve (Budget.ofDecisions 1) LowestFirst.mk,
      .add [⟨1, false⟩, ⟨2, true⟩] (some "a rule"), .add [⟨1, false⟩, ⟨2, false⟩] none,
      .solve Budget.unlimited LowestFirst.mk, .add [⟨4, true⟩] none] := by
    refine ⟨(by decide : 3 < Lit.varBound), fun s₁ e₁ => ⟨bounded _ rfl, fun s₂ e₂ =>
      ⟨bounded _ rfl, fun s₃ e₃ => ⟨?_, fun s₄ e₄ => ⟨bounded _ rfl, fun s₅ e₅ =>
        ⟨bounded _ rfl, fun s₆ e₆ => ⟨?_, fun s₇ e₇ => ⟨bounded _ rfl, fun _ _ => trivial⟩⟩⟩⟩⟩⟩⟩⟩
    · have reached : Call.runAll (.new true) [.register 3, .add [⟨1, true⟩, ⟨2, true⟩] none,
          .add [⟨1, true⟩, ⟨2, false⟩] none] = .ok s₃ :=
        (Call.runAll_cons_of e₁).trans ((Call.runAll_cons_of e₂).trans
          ((Call.runAll_cons_of e₃).trans rfl))
      exact Call.proper_lowestFirst (n := 3) (m := 2) reached (by cbv) (by decide) _
    · have reached : Call.runAll (.new true) [.register 3, .add [⟨1, true⟩, ⟨2, true⟩] none,
          .add [⟨1, true⟩, ⟨2, false⟩] none, .solve (Budget.ofDecisions 1) LowestFirst.mk,
          .add [⟨1, false⟩, ⟨2, true⟩] (some "a rule"), .add [⟨1, false⟩, ⟨2, false⟩] none] =
            .ok s₆ :=
        (Call.runAll_cons_of e₁).trans ((Call.runAll_cons_of e₂).trans
          ((Call.runAll_cons_of e₃).trans ((Call.runAll_cons_of e₄).trans
            ((Call.runAll_cons_of e₅).trans ((Call.runAll_cons_of e₆).trans rfl)))))
      exact Call.proper_lowestFirst (n := 3) (m := 4) reached (by cbv) (by decide) _
  exact ⟨_, rfl, proper, runAll_succeeds proper⟩

end ClauseLearning
