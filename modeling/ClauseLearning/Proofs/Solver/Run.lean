/-
  Whole searches.

  Model. A search begins with an idle solver whose problem is open (`Search.begun`), and its
  rounds lead from one searching solver to the next (`searching_of_steps`). With every round the
  potential of the trail grows. On a trail over `n` variables it is below `(n + 1) ^ (n + 1)`, so
  there are fewer rounds than that (`steps_lt`), and fewer than the search is bounded by.

  Rule. `solve_answers`: what a search answers is right and leaves the solver idle. `run_halts`: a
  search ends, with an answer or with the fault of one of its rounds.
-/
import ClauseLearning.Proofs.Rounds
import ClauseLearning.Proofs.Solver.Round

namespace ClauseLearning

open Round (Steps)

namespace Solver

variable {s s' : Solver}

/-- The trail of a solver is no longer than the number of variables. -/
theorem Sound.length_le (h : s.Sound) (h' : s'.Sound)
    (knows : ∀ v, s'.trail.Knows v ↔ s.trail.Knows v) :
    s'.trail.length ≤ s.assignment.numVariables := by
  have valid := h'.grounded.trail
  have known : ∀ v ∈ s'.trail.literals.map Lit.var, s.assignment.contains v = true := by
    intro v hv
    obtain ⟨l, hl, rfl⟩ := List.mem_map.1 hv
    exact (knows _).1 (valid.knows_of_mem hl)
  have := Assignment.length_le_numVariables h.grounded.trail.counted valid.nodup_vars known
  rwa [List.length_map, Trail.length_literals] at this

/-- There are literals over no more variables than this. -/
theorem Sound.length_le_varBound (h : s.Sound) : s.trail.length ≤ Lit.varBound := by
  have valid := h.grounded.trail
  have known : s.trail.literals.map Lit.var ⊆ List.range Lit.varBound := by
    intro v hv
    obtain ⟨l, hl, rfl⟩ := List.mem_map.1 hv
    exact List.mem_range.2 (h.bounded _ (valid.knows_of_mem hl))
  have := (valid.nodup_vars.subperm known).length_le
  rwa [List.length_map, Trail.length_literals, List.length_range] at this

theorem Sound.levels_le (h : s.Sound) : ∀ k ∈ s.trail.levels, k ≤ s.trail.length := by
  intro k hk
  obtain ⟨l, hl, rfl⟩ := List.mem_map.1 hk
  exact Nat.le_trans (h.grounded.trail.levelOf_le hl) h.grounded.trail.level_le

/-- An idle solver with an open problem begins to search. -/
theorem Idle.searching (h : s.Idle) (feasible : s.status.infeasible? = none) :
    Searching { s with status := .searching } :=
  ⟨⟨h.grounded, h.derived, h.learned, h.bounded⟩, h.watchful feasible, rfl⟩

end Solver

namespace Search

variable {π β : Type} [Policy π] [Termination β] {q q' : Search π β} {s : Solver} {n : Nat}

/-- The search with which `solve` begins. -/
def begun (s : Solver) (budget : β) (policy : π) : Search π β :=
  ⟨{ s with status := .searching }, policy, budget⟩

/-! ## The rounds -/

theorem rounded_of_ok {r : Round (Search π β) (Outcome π)} (h : q.solver.Searching)
    (e : q.round = .ok r) : q.Rounded r :=
  (round_ends h).of_ok e

/-- Rounds keep the solver searching. -/
theorem searching_of_steps (h : q.solver.Searching) (steps : Steps round n q q') :
    q'.solver.Searching ∧ q.solver.Follows q'.solver := by
  induction steps with
  | none => exact ⟨h, .refl _⟩
  | more _ last ih =>
    obtain ⟨searching, follows⟩ := ih h
    obtain ⟨searching', follows', -⟩ := rounded_of_ok searching last
    exact ⟨searching', follows.trans follows'⟩

/-- Every round adds to the potential. -/
theorem le_potential (h : q.solver.Searching) (steps : Steps round n q q') :
    n ≤ Trail.potential q.solver.assignment.numVariables q'.solver.trail.levels := by
  induction steps with
  | none => exact Nat.zero_le _
  | more before last ih =>
    obtain ⟨searching, follows⟩ := searching_of_steps h before
    obtain ⟨-, -, -, s, sound, follows', ext, progress⟩ := rounded_of_ok searching last
    have size := h.toSound.length_le sound (follows.trans follows').knows
    have levels : ∀ k ∈ s.trail.levels, k ≤ _ := fun k hk =>
      Nat.le_trans (sound.levels_le k hk) size
    exact Nat.lt_of_le_of_lt (Nat.le_trans (ih h) ext.potential_le)
      (progress.potential_lt size levels)

/-- A search over `n` variables has fewer than `(n + 1) ^ (n + 1)` rounds that go on. -/
theorem steps_lt (h : q.solver.Searching) (steps : Steps round n q q') :
    n < (q.solver.assignment.numVariables + 1) ^ (q.solver.assignment.numVariables + 1) := by
  obtain ⟨searching, follows⟩ := searching_of_steps h steps
  refine Nat.lt_of_le_of_lt (le_potential h steps) (Trail.potential_lt_pow ?_)
  exact h.toSound.length_le searching.toSound follows.knows

theorem pow_lt_roundBound (n : Nat) : (n + 1) ^ (n + 1) ≤ 2 ^ roundBound n - 1 := by
  have base : n + 1 ≤ 2 ^ n := Nat.lt_two_pow_self
  have small : n * (n + 1) < roundBound n := by
    rw [roundBound]
    refine Nat.lt_of_le_of_lt (Nat.mul_le_mul_right _ (Nat.le_add_right n 2)) ?_
    exact Nat.mul_lt_mul_of_pos_left (by omega) (by omega)
  refine Nat.le_sub_one_of_lt ?_
  calc (n + 1) ^ (n + 1) ≤ (2 ^ n) ^ (n + 1) := Nat.pow_le_pow_left base _
    _ = 2 ^ (n * (n + 1)) := (Nat.pow_mul ..).symm
    _ < 2 ^ roundBound n := Nat.pow_lt_pow_right (by omega) small

/-- A search ends with the answer or the fault of one of its rounds. -/
theorem run_halts (h : q.solver.Searching) : ∃ n q', Steps round n q q' ∧
    ((∃ o, q'.round = .ok (.done o) ∧ q.run = .ok o) ∨
      ∃ e, q'.round = .error e ∧ q.run = .error e) := by
  have bounded : ∀ m q', Steps round m q q' →
      m < 2 ^ roundBound q.solver.assignment.numVariables - 1 :=
    fun m q' steps => Nat.lt_of_lt_of_le (steps_lt h steps) (pow_lt_roundBound _)
  obtain ⟨n, halts⟩ := Round.run_halts bounded
  unfold run
  generalize Round.run round (roundBound q.solver.assignment.numVariables) q = x at halts ⊢
  cases halts with
  | done before last => exact ⟨n, _, before, .inl ⟨_, last, rfl⟩⟩
  | fault before last => exact ⟨n, _, before, .inr ⟨_, last, rfl⟩⟩

/-- It is the round at which the steps end. -/
theorem run_ends_at (h : q.solver.Searching) (steps : Steps round n q q')
    (ends : ∀ r, q'.round ≠ .ok (.more r)) :
    (∃ o, q'.round = .ok (.done o) ∧ q.run = .ok o) ∨
      ∃ e, q'.round = .error e ∧ q.run = .error e := by
  obtain ⟨m, q'', steps', outcome⟩ := run_halts h
  have ends' : ∀ r, q''.round ≠ .ok (.more r) := by
    intro r more
    rcases outcome with ⟨o, last, -⟩ | ⟨e, last, -⟩
    · cases last.symm.trans more
    · cases last.symm.trans more
  obtain rfl := steps.ends_unique steps' ends ends'
  exact outcome

/-- An answer is that of the last round. -/
theorem steps_of_run {o : Outcome π} (h : q.solver.Searching) (e : q.run = .ok o) :
    ∃ n q', Steps round n q q' ∧ q'.round = .ok (.done o) := by
  obtain ⟨n, q', steps, ⟨o', last, run⟩ | ⟨f, -, run⟩⟩ := run_halts h
  · cases run.symm.trans e
    exact ⟨n, q', steps, last⟩
  · cases run.symm.trans e

/-- The answer of a search is right. -/
theorem run_answers {o : Outcome π} (h : q.solver.Searching) (e : q.run = .ok o) :
    o.solver.Idle ∧ q.solver.Follows o.solver ∧ o.verdict.Says o.solver := by
  obtain ⟨n, q', steps, last⟩ := steps_of_run h e
  obtain ⟨searching, follows⟩ := searching_of_steps h steps
  obtain ⟨idle, follows', says', -⟩ := rounded_of_ok searching last
  exact ⟨idle, follows.trans follows', says'⟩

end Search

theorem Status.start_eq {st : Status} (feasible : st.infeasible? = none) :
    st.start = .ok .searching := by
  cases st <;> first | rfl | cases feasible

namespace Solver

variable {π β : Type} [Policy π] [Termination β] {s : Solver} {budget : β} {policy : π}
  {o : Outcome π}

/-- With an open problem, solving is searching. -/
theorem solve_eq (feasible : s.status.infeasible? = none) (budget : β) (policy : π) :
    s.solve budget policy = (Search.begun s budget policy).run := by
  unfold solve
  rw [feasible, Status.start_eq feasible]
  rfl

/-- Without one, the clause kept with the status is refuted. -/
theorem solve_infeasible (h : s.Idle) {c : ClauseRef} (hc : s.status.infeasible? = some c)
    (budget : β) (policy : π) :
    ∃ w, s.solve budget policy = .ok ⟨.unsatisfiable w, s, policy⟩ ∧
      w.Explains s.propagation c := by
  obtain ⟨w, e, explains⟩ := refute_yields h.toSound h.root (h.refuted c hc)
  refine ⟨w, ?_, explains⟩
  unfold solve
  rw [hc]
  dsimp only
  rw [e]
  rfl

/-- What is answered is right, and the solver is idle again. -/
theorem solve_answers (h : s.Idle) (e : s.solve budget policy = .ok o) :
    o.solver.Idle ∧ s.Follows o.solver ∧ o.verdict.Says o.solver := by
  cases hc : s.status.infeasible? with
  | none =>
    rw [solve_eq hc] at e
    obtain ⟨idle, follows, answer⟩ := Search.run_answers (h.searching hc) e
    exact ⟨idle, ⟨follows.clauses, follows.given, follows.knows⟩, answer⟩
  | some c =>
    obtain ⟨w, e', explains⟩ := solve_infeasible h hc budget policy
    cases e'.symm.trans e
    exact ⟨h, .refl s, c, hc, explains⟩

end Solver

end ClauseLearning
