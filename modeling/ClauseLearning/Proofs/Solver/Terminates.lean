/-
  Searches end.

  Model. A search is served when the condition never stops it and the policy always names an
  unassigned variable (`Search.Served`). Its rounds either go on or answer, unless a round has
  learned a clause for which the 64-bit words of the statistics have no room.

  Rule. `solve_terminates`: after every history, a search that is served has boundedly many
  rounds and ends with a solution or a refutation. Only one fault can come in between: that the
  64-bit words are full in which the statistics add up the lengths of learned clauses and the
  levels gone back. They are not as long as the clauses are few (`solve_terminates_of_few`).
-/
import ClauseLearning.Proofs.Solver.Accrual
import ClauseLearning.Proofs.Solver.Served

namespace ClauseLearning

open Round (Steps)

namespace Search

variable {π β : Type} [Policy π] [Termination β] {q : Search π β}

/-- A search that is served answers with a solution or a refutation, or a round overflows. -/
theorem Served.run_ends (served : q.Served) (h : q.solver.Searching) :
    (∃ o, q.run = .ok o ∧ o.verdict ≠ .unknown) ∨
      q.run = .error .overflow ∧ ∃ n q', Steps round n q q' ∧ q'.Overflows := by
  obtain ⟨n, q', steps, ⟨o, last, e⟩ | ⟨f, last, e⟩⟩ := run_halts h
  · obtain ⟨-, -, -, stopped⟩ := rounded_of_ok (searching_of_steps h steps).1 last
    refine .inl ⟨o, e, fun unknown => ?_⟩
    rw [(served n q' steps).1] at stopped
    cases stopped unknown
  · have fails := round_ends (searching_of_steps h steps).1
    rw [last] at fails
    cases fails with
    | overflow full => exact .inr ⟨e, n, q', steps, full⟩
    | policy asks no => exact absurd ((served n q' steps).2 _ asks) no

end Search

variable {h : List Event} {s : Solver} {skip : Bool} {π β : Type} [Policy π] [Termination β]
  {budget : β} {policy : π}

/-- After any history, a search whose policy always names an unassigned variable and whose
    condition does not stop it ends. With an open problem over `n` variables it has fewer than
    `(n + 1) ^ (n + 1)` rounds that go on, in each of which propagation ends. The answer is a
    solution or a refutation, unless a round has learned a clause for which the 64-bit words of
    the statistics have no room, their sums being at most `n` below the bound. -/
theorem solve_terminates (run : Reached skip h s)
    (served : s.status.infeasible? = none → (Search.begun s budget policy).Served) :
    (s.status.infeasible? = none → ∀ n q, Steps Search.round n (Search.begun s budget policy) q →
      n < (s.assignment.numVariables + 1) ^ (s.assignment.numVariables + 1) ∧
        ∃ s', q.solver.propagate = .ok s') ∧
    ((∃ o, s.solve budget policy = .ok o ∧ o.verdict ≠ .unknown) ∨
      s.solve budget policy = .error .overflow ∧
        ∃ n q s', Steps Search.round n (Search.begun s budget policy) q ∧
          q.solver.propagate = .ok s' ∧ s'.statistics.Full s.assignment.numVariables) := by
  refine ⟨fun feasible n q steps => ?_, ?_⟩
  · have begins := run.idle.searching feasible
    obtain ⟨searching, -⟩ := Search.searching_of_steps begins steps
    obtain ⟨s', propagated, -⟩ := Solver.propagate_yields searching
    exact ⟨Search.steps_lt begins steps, s', propagated⟩
  cases hc : s.status.infeasible? with
  | some c =>
    obtain ⟨w, e, -⟩ := Solver.solve_infeasible run.idle hc budget policy
    exact .inl ⟨_, e, nofun⟩
  | none =>
    have begins := run.idle.searching hc
    rw [Solver.solve_eq hc]
    refine ((served hc).run_ends begins).imp_right ?_
    rintro ⟨e, n, q, steps, overflows⟩
    obtain ⟨searching, follows⟩ := Search.searching_of_steps begins steps
    obtain ⟨s', propagated, sound, follows', full⟩ := overflows.full searching
    have size := begins.toSound.length_le sound (follows.trans follows').knows
    exact ⟨e, n, q, s', steps, propagated, full.mono size⟩

theorem solve_terminates_two_rules : ∃ h s, Reached true h s ∧ s.status.infeasible? = none ∧
    (Search.begun s Budget.unlimited LowestFirst.mk).Served ∧
    (s.status.infeasible? = none →
      ∀ n q, Steps Search.round n (Search.begun s Budget.unlimited LowestFirst.mk) q →
        n < (s.assignment.numVariables + 1) ^ (s.assignment.numVariables + 1) ∧
          ∃ s', q.solver.propagate = .ok s') ∧
    ∃ o, s.solve Budget.unlimited LowestFirst.mk = .ok o ∧ o.verdict ≠ .unknown := by
  have loads : ((Solver.new true).addAll [([⟨1, false⟩, ⟨2, true⟩], none),
      ([⟨1, false⟩, ⟨2, false⟩], none)]).map (fun s =>
        (s.status.infeasible?, s.assignment.numVariables, s.clauses.size)) = .ok (none, 2, 2) := by
    cbv
  obtain ⟨s, load, loaded⟩ := Yields.of_map loads
  simp only [Prod.mk.injEq] at loaded
  obtain ⟨feasible, size, clauses⟩ := loaded
  obtain ⟨h, run, -⟩ := Reached.of_new load
  have served : (Search.begun s Budget.unlimited LowestFirst.mk).Served :=
    Search.obliging_lowestFirst.served (run.idle.searching feasible) trivial rfl
  obtain ⟨rounds, answer | ⟨-, n, q, s', steps, propagated, full⟩⟩ :=
    solve_terminates run fun _ => served
  · exact ⟨h, s, run, feasible, served, rounds, answer⟩
  · -- two clauses and fewer than nine learned ones leave room
    obtain ⟨g, begins⟩ := Passes.of_begun run feasible Budget.unlimited LowestFirst.mk
    have few : (Search.begun s Budget.unlimited LowestFirst.mk).FewClauses := by
      refine begins.fewClauses ?_
      change s.clauses.size + 3 ^ s.assignment.numVariables ≤ ClauseRef.bound
      rw [size, clauses]
      decide
    rw [size] at full
    exact absurd (full.mono (by decide)) (begins.not_full_of_steps few steps propagated)

/-- As long as the clauses are few, a search that is served ends with a solution or a
    refutation. -/
theorem solve_terminates_of_few (run : Reached skip h s)
    (served : s.status.infeasible? = none → (Search.begun s budget policy).Served)
    (few : s.status.infeasible? = none → (Search.begun s budget policy).FewClauses) :
    ∃ o, s.solve budget policy = .ok o ∧ o.verdict ≠ .unknown := by
  cases hc : s.status.infeasible? with
  | some c =>
    obtain ⟨w, e, -⟩ := Solver.solve_infeasible run.idle hc budget policy
    exact ⟨_, e, nofun⟩
  | none =>
    obtain ⟨g, begins⟩ := Passes.of_begun run hc budget policy
    rw [Solver.solve_eq hc]
    refine ((served hc).run_ends (run.idle.searching hc)).resolve_right ?_
    rintro ⟨-, n, q, steps, overflows⟩
    exact begins.not_overflows (few hc) n q steps overflows

end ClauseLearning
