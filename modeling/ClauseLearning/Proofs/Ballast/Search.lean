/-
  Searches on laden solvers.

  Model. A policy ignores the clauses when its answers do not depend on the store that it is shown.
  With such a policy a search on a laden solver makes the same rounds as one on the other solver
  (`Search.Laden`), and ends with the same answer.

  Rule. `Solver.Laden.solveLeaving`: the names stay as they are during a search, since all clauses
  that come in are learned.
-/
import ClauseLearning.Proofs.Ballast.Solver
import ClauseLearning.Proofs.Rounds
import ClauseLearning.Proofs.Solver.Inversion
import ClauseLearning.Proofs.Solver.Leaving

namespace ClauseLearning

variable {π β : Type} [Policy π] {f : ClauseRef → ClauseRef} {s s' : Solver}

/-- The answers of the policy do not depend on the clauses. -/
def Policy.IgnoresClauses (π : Type) [Policy π] : Prop :=
  ∀ (p : π) (a : Assignment) (store store' : ClauseStore),
    Policy.next p a store = Policy.next p a store'

/-- The searches are the same, but the second solver is laden. -/
structure Search.Laden (f : ClauseRef → ClauseRef) (q q' : Search π β) : Prop where
  /-- The solvers. -/
  solver : q.solver.Laden f q'.solver
  /-- The policy. -/
  policy : q'.policy = q.policy
  /-- What may be spent. -/
  budget : q'.budget = q.budget

/-- The outcomes are the same, but the second solver is laden. -/
structure Outcome.Laden (f : ClauseRef → ClauseRef) (o o' : Outcome π) : Prop where
  /-- The answers. -/
  verdict : o.verdict.Laden f o'.verdict
  /-- The solvers. -/
  solver : o.solver.Laden f o'.solver
  /-- The policy. -/
  policy : o'.policy = o.policy

/-- The outcomes are related, and the conditions that come with them are the same. -/
def LadenEnd (f : ClauseRef → ClauseRef) (x x' : Outcome π × β) : Prop :=
  x.1.Laden f x'.1 ∧ x'.2 = x.2

namespace Search.Laden

variable [Termination β] {q q' : Search π β}

/-- A decision. -/
theorem decide (blind : Policy.IgnoresClauses π) (h : q.Laden f q') :
    Alike (Search.Laden f) q.decide q'.decide := by
  obtain ⟨s, p, budget⟩ := q
  obtain ⟨s', p', budget'⟩ := q'
  obtain ⟨solver, rfl, rfl⟩ := h
  unfold Search.decide
  dsimp only at solver ⊢
  rw [solver.assignment_eq, blind p' s.assignment s'.clauses s.clauses]
  refine Alike.bind_same fun unassigned => Alike.bind_same fun answer => ?_
  split
  · rfl
  · split
    · rfl
    · exact ((solver.noteConsumed answer.consumed).decideOn _ _).bind fun _ _ decided =>
        ⟨decided, rfl, rfl⟩

/-- A round. -/
theorem round (blind : Policy.IgnoresClauses π) (h : q.Laden f q')
    (searching : q'.solver.Searching) :
    Alike (Round.Like (Search.Laden f) (Outcome.Laden f)) q.round q'.round := by
  obtain ⟨s, p, budget⟩ := q
  obtain ⟨s', p', budget'⟩ := q'
  obtain ⟨solver, rfl, rfl⟩ := h
  unfold Search.round
  dsimp only at solver searching ⊢
  rw [solver.status_eq]
  split
  · refine s.status.stop_alike.bind fun u u' e => ?_
    obtain rfl := e
    exact (solver.leave u).bind fun _ _ left => .done ⟨.unknown, left, rfl⟩
  · refine (solver.propagate searching.watchful).bind fun s s' solver => ?_
    rw [solver.status_eq]
    cases s.status with
    | conflicting c =>
      refine (solver.onConflict c).bind fun (v, s) (v', s') ⟨verdict, solver⟩ => ?_
      cases verdict with
      | none => exact .more ⟨solver, rfl, rfl⟩
      | some verdict => exact .done ⟨verdict, solver, rfl⟩
    | _ =>
      dsimp only [Status.rename]
      rw [solver.isComplete_eq]
      split
      · refine solver.succeed.bind fun (v, s) (v', s') ⟨verdict, solver⟩ => ?_
        exact .done ⟨verdict, solver, rfl⟩
      · have onward : Search.Laden f (⟨s, p', (Termination.poll budget').2⟩ : Search π β)
            ⟨s', p', (Termination.poll budget').2⟩ := ⟨solver, rfl, rfl⟩
        exact (decide blind onward).bind fun _ _ h => .more h

/-- A round; the conditions that come with the answers are the same. -/
theorem roundLeaving (blind : Policy.IgnoresClauses π) (h : q.Laden f q')
    (searching : q'.solver.Searching) :
    Alike (Round.Like (fun q q' => Search.Laden f q q' ∧ q'.solver.Searching) (LadenEnd f))
      q.roundLeaving q'.roundLeaving := by
  unfold Search.roundLeaving
  refine (h.round blind searching).and_eq.bind ?_
  rintro r r' ⟨related, -, e⟩
  cases related with
  | more h => exact .more ⟨h, (Search.rounded_of_ok searching e).1⟩
  | done outcome =>
    rw [h.budget]
    exact .done ⟨outcome, rfl⟩

end Search.Laden

/-! ## The status at the end -/

theorem Status.eq_stopped_of_stop {st u : Status} (e : st.stop = .ok u) : u = .stopped := by
  cases st <;> cases e <;> rfl

theorem Status.eq_solved_of_finish {st u : Status} (e : st.finish = .ok u) : u = .solved := by
  cases st <;> cases e <;> rfl

theorem Solver.status_of_leave {status : Status} (e : s.leave status = .ok s') :
    s'.status = status := by
  obtain ⟨p, -, e⟩ := Yields.exists_of_bind e
  cases e
  rfl

omit [Policy π] in
/-- With an answer no conflict is left open. -/
theorem Search.Answers.settled [Termination β] {q : Search π β} {o : Outcome π} (h : q.Answers o)
    (c : ClauseRef) : o.solver.status ≠ .conflicting c := by
  cases h with
  | stops _ stops left =>
    rw [Solver.status_of_leave left, Status.eq_stopped_of_stop stops]
    simp
  | refutes _ _ _ _ fails _ =>
    rw [Status.eq_infeasible_of_fail fails]
    simp
  | succeeds _ _ _ _ finishes left =>
    rw [Solver.status_of_leave left, Status.eq_solved_of_finish finishes]
    simp

namespace Solver

variable [Termination β] {budget : β} {policy : π} {o : Outcome π}

theorem Resting.solve (h : s.Resting) (e : s.solve budget policy = .ok o) : o.solver.Resting := by
  refine ⟨(solve_answers h.toIdle e).1, fun c => ?_⟩
  cases hc : s.status.infeasible? with
  | none =>
    rw [solve_eq hc] at e
    obtain ⟨n, q, steps, last⟩ := Search.steps_of_run (h.searching hc) e
    exact (Search.cases_of_round last).settled c
  | some d =>
    obtain ⟨w, e', -⟩ := solve_infeasible h.toIdle hc budget policy
    cases e'.symm.trans e
    exact h.settled c

/-- A search to its end, or a refutation of what is known to have no solution. -/
theorem Laden.solveLeaving (blind : Policy.IgnoresClauses π) (h : s.Laden f s') (idle' : s'.Idle)
    (budget : β) (policy : π) :
    Alike (LadenEnd f) (s.solveLeaving budget policy) (s'.solveLeaving budget policy) := by
  cases hc : s.status.infeasible? with
  | some c =>
    unfold Solver.solveLeaving
    rw [h.infeasible?_eq, hc]
    exact (h.refute c).bind fun w w' hw => ⟨⟨.unsatisfiable hw, h, rfl⟩, rfl⟩
  | none =>
    have hc' : s'.status.infeasible? = none := by
      rw [h.infeasible?_eq, hc]
      rfl
    rw [solveLeaving_eq hc, solveLeaving_eq hc']
    have begun : Search.Laden f (Search.begun s budget policy) (Search.begun s' budget policy) :=
      ⟨h.withStatus .searching, rfl, rfl⟩
    have step : ∀ q q' : Search π β, Search.Laden f q q' ∧ q'.solver.Searching →
        Alike (Round.Like (fun q q' => Search.Laden f q q' ∧ q'.solver.Searching) (LadenEnd f))
          q.roundLeaving q'.roundLeaving :=
      fun q q' h => h.1.roundLeaving blind h.2
    unfold Search.runLeaving
    rw [begun.solver.assignment_eq]
    refine (Round.run_alike step _ ⟨begun, idle'.searching hc'⟩).bind fun x x' related => ?_
    cases related with
    | more _ => rfl
    | done ends => exact ends

end Solver

end ClauseLearning
