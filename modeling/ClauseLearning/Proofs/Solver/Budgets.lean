/-
  Budgets cut a search short and change nothing else.

  Model. A fresh budget without a limit of time is put together from numbers of decisions, from
  budgets that may be left out, and from pairs (`Budget.Plan`). However it is put together, it is
  used up when the smallest number in it is reached (`isSpent_build`): both budgets of a pair are
  told of every decision, also the one that was not asked because the other is used up.

  A search asks its budget at the beginning of every round and at no other moment. So a round either
  gives up before it has done anything, or it is the round of the search without a bound
  (`Search.round_unlimited`), and the two searches go together until one of them gives up
  (`Search.steps_unlimited`).

  Rule. `solve_cuts`: a search makes at most as many decisions as the smallest number says, gives up
  just when it has made as many, and otherwise leaves what the search without a bound leaves. The
  budget is asked before propagation, so the decision that uses it up is never followed by an
  answer, even where propagation would have found one. As long as the clauses are few, both
  searches end (`solve_cuts_of_few`).
-/
import ClauseLearning.Proofs.Solver.Calls

namespace ClauseLearning

open Round (Steps)

/-! ## Budgets -/

namespace Budget

/-- How a fresh budget without a limit of time is put together. -/
inductive Plan where
  /-- No bound. -/
  | unlimited
  /-- A number of decisions. -/
  | decisions (n : Nat)
  /-- A budget that is left out. -/
  | absent
  /-- A budget that could have been left out. -/
  | present (p : Plan)
  /-- Two budgets together. -/
  | both (p q : Plan)
  deriving DecidableEq, Repr

namespace Plan

/-- The fresh budget. -/
def build : Plan → Budget
  | unlimited => .unlimited
  | decisions n => .ofDecisions n
  | absent => .ofOption none
  | present p => .ofOption (some p.build)
  | both p q => .both p.build q.build

/-- The numbers of decisions in it. -/
def limits : Plan → List Nat
  | unlimited => []
  | decisions n => [n]
  | absent => []
  | present p => p.limits
  | both p q => p.limits ++ q.limits

/-- The smallest number in it, if there is one. -/
def smallest? (p : Plan) : Option Nat := p.limits.min?

variable {p : Plan} {n k : Nat}

theorem smallest?_eq_some_iff :
    p.smallest? = some n ↔ n ∈ p.limits ∧ ∀ m ∈ p.limits, n ≤ m := by
  unfold smallest?
  exact List.min?_eq_some_iff

theorem exists_smallest?_le_iff :
    (∃ n, p.smallest? = some n ∧ n ≤ k) ↔ ∃ n ∈ p.limits, n ≤ k := by
  constructor
  · rintro ⟨n, small, le⟩
    exact ⟨n, (smallest?_eq_some_iff.1 small).1, le⟩
  · rintro ⟨n, mem, le⟩
    obtain ⟨m, small⟩ : ∃ m, p.smallest? = some m :=
      Option.isSome_iff_exists.1 (List.isSome_min?_of_mem mem)
    exact ⟨m, small, Nat.le_trans ((smallest?_eq_some_iff.1 small).2 n mem) le⟩

end Plan

theorem spends_unlimited (k : Nat) : spend^[k] unlimited = unlimited :=
  Function.iterate_fixed rfl k

theorem spends_decisions (limit made k : Nat) :
    spend^[k] (decisions limit made) = decisions limit (made + k) := by
  induction k with
  | zero => rfl
  | succ k ih => rw [Function.iterate_succ_apply', ih, spend, Nat.add_assoc]

theorem spends_both (a b : Budget) (k : Nat) :
    spend^[k] (both a b) = both (spend^[k] a) (spend^[k] b) := by
  induction k with
  | zero => rfl
  | succ k ih => simp only [Function.iterate_succ_apply', ih, spend]

/-- After `k` decisions the budget is used up if the smallest number in it is at most `k`. -/
theorem isSpent_build (p : Plan) (k : Nat) :
    (spend^[k] p.build).isSpent = true ↔ ∃ n, p.smallest? = some n ∧ n ≤ k := by
  rw [Plan.exists_smallest?_le_iff]
  induction p with
  | unlimited => simp [Plan.build, Plan.limits, spends_unlimited, isSpent]
  | decisions n => simp [Plan.build, Plan.limits, ofDecisions, spends_decisions, isSpent]
  | absent => simp [Plan.build, Plan.limits, ofOption, spends_unlimited, isSpent]
  | present p ih => exact ih
  | both p q ihp ihq =>
    rw [Plan.build, spends_both, isSpent, Bool.or_eq_true, ihp, ihq, Plan.limits]
    simp only [List.mem_append, or_and_right, exists_or]

end Budget

namespace Search

variable {π β : Type} [Policy π] [Termination β] {q q' q'' : Search π β} {o : Outcome π}
  {m n : Nat}

/-! ## Without a bound -/

/-- The search without a bound. -/
def unlimited (q : Search π β) : Search π Budget := ⟨q.solver, q.policy, .unlimited⟩

theorem unlimited_begun {π β : Type} (s : Solver) (budget : β) (policy : π) :
    (begun s budget policy).unlimited = begun s .unlimited policy := rfl

/-- The round that leads to the search without a bound. -/
def unlimitedRound : Round (Search π β) (Outcome π) → Round (Search π Budget) (Outcome π)
  | .more q => .more q.unlimited
  | .done o => .done o

/-- A decision depends on the condition in nothing. -/
theorem decide_unlimited (q : Search π β) :
    Alike (fun r r' => unlimited r = r') q.decide q.unlimited.decide := by
  obtain ⟨solver, policy, budget⟩ := q
  unfold decide unlimited
  dsimp only
  refine Alike.bind_same fun _ => Alike.bind_same fun a => ?_
  split
  · rfl
  · split
    · rfl
    · exact Alike.bind_same fun s => rfl

/-- A round that is not stopped is the round without a bound. -/
theorem round_unlimited (goesOn : (Termination.poll q.budget).1 = false) :
    q.unlimited.round = unlimitedRound <$> q.round := by
  refine (Alike.map_eq ?_).symm
  obtain ⟨solver, policy, budget⟩ := q
  unfold round unlimited
  dsimp only at goesOn ⊢
  rw [goesOn]
  refine Alike.bind_same fun s => ?_
  split
  · refine Alike.bind_same fun (v, s) => ?_
    cases v <;> rfl
  · split
    · exact Alike.bind_same fun (v, s) => rfl
    · exact (decide_unlimited ⟨s, policy, _⟩).bind fun _ _ same => same ▸ rfl

/-! ## What a round counts -/

/-- Learning from a conflict makes no decision. -/
theorem decisions_of_resolveConflict {s s' s'' : Solver} {c : ClauseRef}
    (propagated : s.propagate = .ok s') (resolved : s'.resolveConflict c = .ok s'') :
    s''.statistics.decisions = s.statistics.decisions := by
  obtain ⟨_, _, same⟩ := Solver.statistics_of_propagate propagated
  obtain ⟨d, -, counted⟩ := Solver.counted_of_resolveConflict resolved
  rw [(Solver.counts_of_countLearned counted).1, same]

theorem decisions_of_decideOn {s s' s'' : Solver} {v : Var} {polarity consumed : Bool}
    (propagated : s.propagate = .ok s')
    (decided : (s'.noteConsumed consumed).decideOn v polarity = .ok s'') :
    s''.statistics.decisions = s.statistics.decisions + 1 := by
  obtain ⟨_, _, same⟩ := Solver.statistics_of_propagate propagated
  obtain ⟨p, -, rfl⟩ := Solver.exists_of_decideOn decided
  change s'.statistics.decisions + 1 = _
  rw [same]

/-- A round that goes on was not stopped. It has made a decision and told the condition of it, or
    neither. -/
theorem GoesOn.counts (h : q.GoesOn q') : (Termination.poll q.budget).1 = false ∧
    (q'.solver.statistics.decisions = q.solver.statistics.decisions ∧
        q'.budget = (Termination.poll q.budget).2 ∨
      q'.solver.statistics.decisions = q.solver.statistics.decisions + 1 ∧
        q'.budget = Termination.spend (Termination.poll q.budget).2) := by
  cases h with
  | learns goesOn propagated _ _ resolved _ =>
    have same := decisions_of_resolveConflict propagated resolved
    exact ⟨goesOn, .inl ⟨same, rfl⟩⟩
  | decides asks _ _ _ decided =>
    exact ⟨asks.1, .inr ⟨decisions_of_decideOn asks.2.1 decided, rfl⟩⟩

/-- A round that answers makes no decision, and gives up just when the condition says so. -/
theorem Answers.counts {π β : Type} [Termination β] {q : Search π β} {o : Outcome π}
    (h : q.Answers o) :
    o.solver.statistics.decisions = q.solver.statistics.decisions ∧
      (o.verdict = .unknown ↔ (Termination.poll q.budget).1 = true) := by
  cases h with
  | stops stopped _ left =>
    rw [Solver.leave] at left
    refine ⟨?_, iff_of_true rfl stopped⟩
    rw [(Solver.learned_of_cancelUntil left).2.1]
  | refutes goesOn propagated =>
    obtain ⟨_, _, same⟩ := Solver.statistics_of_propagate propagated
    refine ⟨?_, by simp [goesOn]⟩
    dsimp only
    rw [same]
  | succeeds goesOn propagated _ _ _ left =>
    obtain ⟨_, _, same⟩ := Solver.statistics_of_propagate propagated
    refine ⟨?_, by simp [goesOn]⟩
    dsimp only
    rw [(Solver.learned_of_cancelUntil left).2.1]
    dsimp only
    rw [same]

/-- The searches go together. -/
theorem steps_unlimited (steps : Steps round n q q') :
    Steps round n q.unlimited q'.unlimited := by
  induction steps with
  | none => exact .none _
  | more _ last ih =>
    refine .more ih ?_
    rw [round_unlimited (cases_of_round last).counts.1, last]
    rfl

/-- A search keeps to the rules if the one without a bound does. -/
theorem Proper.of_unlimited (proper : q.unlimited.Proper) : q.Proper := by
  intro n q' steps
  obtain ⟨names, roomy⟩ := proper n q'.unlimited (steps_unlimited steps)
  exact ⟨fun s asks => names s ⟨rfl, asks.2⟩, roomy⟩

/-- Decisions are never taken back. -/
theorem decisions_le (steps : Steps round n q q') :
    q.solver.statistics.decisions ≤ q'.solver.statistics.decisions := by
  induction steps with
  | none => exact Nat.le_refl _
  | more _ last ih =>
    obtain ⟨-, ⟨same, -⟩ | ⟨more, -⟩⟩ := (cases_of_round last).counts
    · omega
    · omega

/-- A round in which the search gives up meets no fault. -/
theorem goesOn_of_fault {e : Fault} (h : q.solver.Searching) (last : q.round = .error e) :
    (Termination.poll q.budget).1 = false := by
  obtain ⟨solver, policy, budget⟩ := q
  by_contra stop
  rw [Bool.not_eq_false] at stop
  obtain ⟨s', left, -⟩ := Solver.leave_yields h.toSound h.watchful .stopped rfl
  unfold round at last
  dsimp only at stop last
  rw [if_pos stop, h.status] at last
  change (solver.leave .stopped >>= fun s => _) = _ at last
  rw [left] at last
  cases last

/-! ## With a fresh budget -/

section Fresh

variable {q q' : Search π Budget} {p : Budget.Plan}

/-- The decisions made are those of which the budget was told, and no more than the smallest number
    in it says; it is used up when they are as many. -/
theorem decisions_of_steps (fresh : q.budget = p.build) (steps : Steps round n q q') : ∃ k,
    q'.solver.statistics.decisions = q.solver.statistics.decisions + k ∧
      (∀ n, p.smallest? = some n → k ≤ n) ∧
      ((Termination.poll q'.budget).1 = true ↔ p.smallest? = some k) := by
  suffices told : ∃ k, q'.solver.statistics.decisions = q.solver.statistics.decisions + k ∧
      (∀ n, p.smallest? = some n → k ≤ n) ∧ q'.budget = Budget.spend^[k] p.build by
    obtain ⟨k, made, within, budget⟩ := told
    refine ⟨k, made, within, ?_⟩
    rw [budget]
    refine (Budget.isSpent_build p k).trans ⟨?_, fun small => ⟨k, small, Nat.le_refl k⟩⟩
    rintro ⟨n, small, le⟩
    rw [small, Nat.le_antisymm le (within n small)]
  induction steps with
  | none => exact ⟨0, rfl, fun _ _ => Nat.zero_le _, fresh⟩
  | more _ last ih =>
    obtain ⟨k, made, within, budget⟩ := ih fresh
    obtain ⟨goesOn, ⟨same, budget'⟩ | ⟨more, budget'⟩⟩ := (cases_of_round last).counts
    · exact ⟨k, same.trans made, within, budget'.trans budget⟩
    · have unspent : ¬ (Budget.spend^[k] p.build).isSpent = true := by
        rw [← budget]
        exact Bool.eq_false_iff.1 goesOn
      rw [Budget.isSpent_build] at unspent
      refine ⟨k + 1, ?_, fun n small => ?_, ?_⟩
      · rw [more, made, Nat.add_assoc]
      · exact Nat.lt_of_not_le fun le => unspent ⟨n, small, le⟩
      · rw [budget', Function.iterate_succ_apply', ← budget]
        rfl

/-- The search gives up just when it has made as many decisions as the smallest number says. -/
theorem decisions_of_answer (fresh : q.budget = p.build) (steps : Steps round n q q')
    (last : q'.round = .ok (.done o)) : ∃ k,
    o.solver.statistics.decisions = q.solver.statistics.decisions + k ∧
      (∀ n, p.smallest? = some n → k ≤ n) ∧ (o.verdict = .unknown ↔ p.smallest? = some k) := by
  obtain ⟨k, made, within, spent⟩ := decisions_of_steps fresh steps
  obtain ⟨same, gaveUp⟩ := (cases_of_round last).counts
  exact ⟨k, same.trans made, within, gaveUp.trans spent⟩

/-- Where a search ends without giving up, the search without a bound ends in the same way. -/
theorem run_unlimited (h : q.solver.Searching) (steps : Steps round n q q')
    (goesOn : (Termination.poll q'.budget).1 = false) {result : Except Fault (Outcome π)}
    (last : q'.round = result.map .done) : q.unlimited.run = result := by
  have last' : q'.unlimited.round = result.map .done := by
    rw [round_unlimited goesOn, last]
    cases result <;> rfl
  have ends : ∀ r, q'.unlimited.round ≠ .ok (.more r) := by
    intro r
    rw [last']
    cases result <;> nofun
  obtain ⟨o, answer, e⟩ | ⟨f, fault, e⟩ :=
    run_ends_at (q := q.unlimited) h (steps_unlimited steps) ends
  · rw [e]
    cases result <;> cases last'.symm.trans answer
    rfl
  · rw [e]
    cases result <;> cases last'.symm.trans fault
    rfl

/-- An answer is that of the search without a bound. -/
theorem run_unlimited_of_known (h : q.solver.Searching) (steps : Steps round n q q')
    (last : q'.round = .ok (.done o)) (known : o.verdict ≠ .unknown) :
    q.unlimited.run = .ok o := by
  refine run_unlimited h steps ?_ last
  exact Bool.eq_false_iff.2 fun stop => known ((cases_of_round last).counts.2.2 stop)

/-- A fault is one that the search without a bound meets. -/
theorem run_unlimited_of_fault {f : Fault} (h : q.solver.Searching) (steps : Steps round n q q')
    (last : q'.round = .error f) : q.unlimited.run = .error f := by
  refine run_unlimited h steps ?_ last
  exact goesOn_of_fault (searching_of_steps h steps).1 last

/-- Until it ends, the search without a bound makes the decisions of the search with one. -/
theorem decisions_le_unlimited (h : q.solver.Searching) (steps : Steps round n q q')
    (e : q.unlimited.run = .ok o) :
    q'.solver.statistics.decisions ≤ o.solver.statistics.decisions := by
  obtain ⟨m, r, steps', last⟩ := steps_of_run (q := q.unlimited) h e
  have ends : ∀ r', r.round ≠ .ok (.more r') := by
    intro r'
    rw [last]
    nofun
  obtain ⟨j, rfl⟩ := Nat.exists_eq_add_of_le (steps'.le_of_ends (steps_unlimited steps) ends)
  obtain ⟨r', first, rest⟩ := steps'.split
  obtain rfl := (steps_unlimited steps).unique first
  rw [(cases_of_round last).counts.1]
  exact decisions_le (q := q'.unlimited) rest

/-- The search gives up just when the search without a bound makes as many decisions as the smallest
    number says. -/
theorem unknown_iff {o' : Outcome π} {made : Nat} (h : q.solver.Searching)
    (fresh : q.budget = p.build) (steps : Steps round n q q') (last : q'.round = .ok (.done o))
    (e : q.unlimited.run = .ok o')
    (count : o'.solver.statistics.decisions = q.solver.statistics.decisions + made) :
    o.verdict = .unknown ↔ ∃ n, p.smallest? = some n ∧ n ≤ made := by
  obtain ⟨k, total, within, gaveUp⟩ := decisions_of_answer fresh steps last
  constructor
  · intro unknown
    have more := decisions_le_unlimited h steps e
    rw [← (cases_of_round last).counts.1] at more
    exact ⟨k, gaveUp.1 unknown, by omega⟩
  · rintro ⟨n, small, le⟩
    by_contra known
    obtain rfl : o = o' :=
      Except.ok.inj ((run_unlimited_of_known h steps last known).symm.trans e)
    have : k ≤ n := within n small
    exact known (gaveUp.2 (by rw [small]; congr 1; omega))

end Fresh

end Search

/-! ## Whole searches -/

variable {h : List Event} {s : Solver} {skip : Bool} {π : Type} [Policy π] {policy : π}

/-- After any history, let a search with a fresh budget begin on an open problem, with a policy that
    names an unassigned variable whenever it is asked. At no round has it made more decisions than
    the smallest number in the budget says. It gives up just when it has made as many, which is when
    the search without a bound does not end with fewer; and otherwise it leaves what that search
    leaves. The one fault, that the statistics are full, is a fault of that search too. -/
theorem solve_cuts (run : Reached skip h s) (feasible : s.status.infeasible? = none)
    (p : Budget.Plan)
    (conforms : ∀ m q s', Steps Search.round m (Search.begun s p.build policy) q → q.Asks s' →
      Search.Named q.policy s') :
    (∀ m q, Steps Search.round m (Search.begun s p.build policy) q →
      ∀ n, p.smallest? = some n →
        q.solver.statistics.decisions ≤ s.statistics.decisions + n) ∧
    Ends (s.solve p.build policy)
      (fun o => ∃ made, o.solver.statistics.decisions = s.statistics.decisions + made ∧
        (∀ n, p.smallest? = some n → made ≤ n) ∧
        (o.verdict = .unknown ↔ p.smallest? = some made) ∧
        (o.verdict ≠ .unknown → s.solve Budget.unlimited policy = .ok o) ∧
        ∀ o' made', s.solve Budget.unlimited policy = .ok o' →
          o'.solver.statistics.decisions = s.statistics.decisions + made' →
          (o.verdict = .unknown ↔ ∃ n, p.smallest? = some n ∧ n ≤ made'))
      fun fault => fault = .overflow ∧ s.solve Budget.unlimited policy = .error .overflow := by
  have begins := run.idle.searching feasible
  have fresh : (Search.begun s p.build policy).budget = p.build := rfl
  refine ⟨fun m q steps n small => ?_, ?_⟩
  · obtain ⟨k, made, within, -⟩ := Search.decisions_of_steps fresh steps
    rw [made]
    exact Nat.add_le_add_left (within n small) _
  · rw [Solver.solve_eq feasible, Solver.solve_eq feasible,
      ← Search.unlimited_begun s p.build policy]
    obtain ⟨m, q, steps, ⟨o, last, e⟩ | ⟨f, last, e⟩⟩ :=
      Search.run_halts (q := Search.begun s p.build policy) begins
    · rw [e]
      obtain ⟨k, made, within, gaveUp⟩ := Search.decisions_of_answer fresh steps last
      exact ⟨k, made, within, gaveUp, Search.run_unlimited_of_known begins steps last,
        fun o' made' e' count => Search.unknown_iff begins fresh steps last e' count⟩
    · have fails := Search.round_ends (Search.searching_of_steps begins steps).1
      rw [last] at fails
      rw [e]
      cases fails with
      | overflow full => exact ⟨rfl, Search.run_unlimited_of_fault begins steps last⟩
      | policy asks no => exact absurd (conforms m q _ steps asks) no

/-- Without a bound 1 is decided on and found false, 2 is decided on, and that is a solution. With
    three decisions the search ends in the same way. With two it gives up, although no decision is
    left to make. -/
theorem solve_cuts_last_decision : ∃ h s o o', Reached true h s ∧ s.status.infeasible? = none ∧
    s.solve (Budget.Plan.both (.present (.decisions 2)) (.both .absent (.decisions 7))).build
      LowestFirst.mk = .ok o ∧ o.verdict = .unknown ∧ o.solver.statistics.decisions = 2 ∧
    s.solve (Budget.Plan.both .unlimited (.decisions 3)).build LowestFirst.mk = .ok o' ∧
    s.solve Budget.unlimited LowestFirst.mk = .ok o' ∧ o'.verdict ≠ .unknown ∧
      o'.solver.statistics.decisions = 2 := by
  let two : Budget.Plan := .both (.present (.decisions 2)) (.both .absent (.decisions 7))
  let three : Budget.Plan := .both .unlimited (.decisions 3)
  have answers : ((Solver.new true).addAll [([⟨1, false⟩, ⟨2, true⟩], none),
      ([⟨1, false⟩, ⟨2, false⟩], none)] >>= fun s =>
        s.solve two.build LowestFirst.mk >>= fun o =>
          (s.solve three.build LowestFirst.mk).map fun o' =>
            ((s.status.infeasible?, s.statistics.decisions),
              o.solver.statistics.decisions, o'.solver.statistics.decisions)) =
        .ok ((none, 0), 2, 2) := by
    cbv
  obtain ⟨s, load, answers⟩ := Yields.exists_of_bind answers
  obtain ⟨o, cut, answers⟩ := Yields.exists_of_bind answers
  obtain ⟨o', found, answers⟩ := Yields.of_map answers
  simp only [Prod.mk.injEq] at answers
  obtain ⟨⟨feasible, before⟩, made, made'⟩ := answers
  obtain ⟨h, run, -⟩ := Reached.of_new load
  have conforms : ∀ (p : Budget.Plan) m q s',
      Steps Search.round m (Search.begun s p.build LowestFirst.mk) q → q.Asks s' →
        Search.Named q.policy s' := by
    intro p m q s' steps asks
    have begins := run.idle.searching feasible
    exact asks.named_lowestFirst (Search.searching_of_steps begins steps).1
  obtain ⟨k, count, -, gaveUp, -⟩ := (solve_cuts run feasible two (conforms two)).2.of_ok cut
  obtain ⟨k', count', -, gaveUp', same, -⟩ :=
    (solve_cuts run feasible three (conforms three)).2.of_ok found
  obtain rfl : k = 2 := by omega
  obtain rfl : k' = 2 := by omega
  have known : o'.verdict ≠ .unknown := by
    rw [ne_eq, gaveUp']
    decide
  exact ⟨h, s, o, o', run, feasible, cut, gaveUp.2 rfl, made, found, same known, known, made'⟩

/-- As long as the clauses are few, the searches with and without the budget both end. Without it
    there is an answer, after some number of decisions. Where the smallest number in the budget is
    not greater, the search with the budget gives up after that many decisions; otherwise it leaves
    what the other one leaves. -/
theorem solve_cuts_of_few (run : Reached skip h s) (feasible : s.status.infeasible? = none)
    (conforms : ∀ m q s', Steps Search.round m (Search.begun s Budget.unlimited policy) q →
      q.Asks s' → Search.Named q.policy s')
    (few : (Search.begun s Budget.unlimited policy).FewClauses) (p : Budget.Plan) :
    ∃ o made o', s.solve Budget.unlimited policy = .ok o ∧ o.verdict ≠ .unknown ∧
      o.solver.statistics.decisions = s.statistics.decisions + made ∧
      s.solve p.build policy = .ok o' ∧
      ((∃ n, p.smallest? = some n ∧ n ≤ made ∧ o'.verdict = .unknown ∧
          o'.solver.statistics.decisions = s.statistics.decisions + n) ∨
        (∀ n, p.smallest? = some n → made < n) ∧ o' = o) := by
  have begins := run.idle.searching feasible
  obtain ⟨g, passes⟩ := Passes.of_begun run feasible Budget.unlimited policy
  have proper := passes.proper few conforms
  obtain ⟨o, e, -⟩ := Solver.solve_yields run.idle fun _ => proper
  obtain ⟨o', e', -⟩ := Solver.solve_yields run.idle fun _ =>
    (Search.Proper.of_unlimited (q := Search.begun s p.build policy) proper)
  have unlimited := (Solver.solve_eq feasible Budget.unlimited policy).symm.trans e
  have limited := (Solver.solve_eq feasible p.build policy).symm.trans e'
  obtain ⟨m, q, steps, last⟩ := Search.steps_of_run begins unlimited
  obtain ⟨m', q', steps', last'⟩ := Search.steps_of_run begins limited
  obtain ⟨made, count, -, gaveUp⟩ :=
    Search.decisions_of_answer (p := .unlimited) rfl steps last
  obtain ⟨k, count', -, gaveUp'⟩ := Search.decisions_of_answer (p := p) rfl steps' last'
  have cut := Search.unknown_iff begins rfl steps' last' unlimited count
  have answered : o.verdict ≠ .unknown := by
    intro unknown
    cases gaveUp.1 unknown
  refine ⟨o, made, o', e, answered, count, e', ?_⟩
  by_cases unknown : o'.verdict = .unknown
  · obtain ⟨n, small, le⟩ := cut.1 unknown
    cases small.symm.trans (gaveUp'.1 unknown)
    exact .inl ⟨k, small, le, unknown, count'⟩
  · refine .inr ⟨fun n small => Nat.lt_of_not_le fun le => unknown (cut.2 ⟨n, small, le⟩), ?_⟩
    have same := Search.run_unlimited_of_known begins steps' last' unknown
    exact Except.ok.inj (same.symm.trans unlimited)

end ClauseLearning
