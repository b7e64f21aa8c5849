/-
  What the answers of a solver say about its history.

  Model. A solution is read as a valuation, in which variables that are not part of the problem
  are false. The requirements of a refutation form a core when they are clauses of the history
  that no valuation satisfies at once (`Refutation.Core`).

  Rule. After every history a solution satisfies every clause that was added
  (`solution_satisfies`), and the requirements of a refutation form a core
  (`requirements_core`). So an answer other than giving up is decided by the clauses alone
  (`satisfiable_iff`).
-/
import Mathlib
import ClauseLearning.Policy.Lowest
import ClauseLearning.Proofs.Solver.History

namespace ClauseLearning

/-! ## Solutions -/

namespace Solution

variable {sol : Solution} {l : Lit} {ls : List Lit}

theorem litValue?_eq (sol : Solution) (l : Lit) :
    sol.litValue? l = (sol.value? l.var).map (· == l.positive) := rfl

/-- The valuation of a solution. -/
def valuation (sol : Solution) : Valuation := fun v => (sol.value? v).getD false

theorem holds_of_litValue? (h : sol.litValue? l = some true) : l.Holds sol.valuation := by
  rw [litValue?_eq] at h
  obtain ⟨b, hb, e⟩ := Option.map_eq_some_iff.1 h
  rw [Lit.Holds, valuation, hb, Option.getD_some]
  exact beq_iff_eq.1 e

theorem satisfies_of_true (h : ∃ l ∈ ls, sol.litValue? l = some true) :
    sol.valuation.Satisfies ls := by
  obtain ⟨l, hl, true⟩ := h
  exact ⟨l, hl, holds_of_litValue? true⟩

/-- Of a literal with a value and its negation, one is true. -/
theorem true_or_neg_true (h : (sol.value? l.var).isSome = true) :
    sol.litValue? l = some true ∨ sol.litValue? (-l) = some true := by
  obtain ⟨b, hb⟩ := Option.isSome_iff_exists.1 h
  rw [litValue?_eq, litValue?_eq, Lit.neg_var, Lit.neg_positive, hb]
  cases b <;> cases l.positive <;> simp

end Solution

variable {h : List Event} {s : Solver} {skip : Bool} {sol : Solution} {w : Refutation}

/-- A solution makes a literal true in every clause that was added without an error. -/
theorem Records.satisfied (records : Records h s) (answer : Verdict.Says s (.satisfiable sol))
    {ls : List Lit} {provenance : Option String} {a : Added}
    (mem : .added ls provenance a ∈ h) (accepted : a.error? = none) :
    ∃ l ∈ ls, sol.litValue? l = some true := by
  obtain ⟨-, values, clauses⟩ := answer
  cases a with
  | kept r =>
    obtain ⟨c, hc, same⟩ := records.kept ls provenance _ r mem rfl
    obtain ⟨l, hl, true⟩ := clauses r c hc
    exact ⟨l, Clause.mem_ofList.1 (same.mem_iff.1 hl), true⟩
  | skipped c =>
    obtain ⟨l, hl, hn⟩ := records.skipped ls provenance c mem
    have value : (sol.value? l.var).isSome = true :=
      (values _).2 ((records.knows _).2 (.inr ⟨ls, provenance, _, mem, nofun, l, hl, rfl⟩))
    rcases Solution.true_or_neg_true value with true | true
    · exact ⟨l, hl, true⟩
    · exact ⟨-l, hn, true⟩
  | infeasible r => cases accepted
  | refused => cases accepted

/-- A solution satisfies the clauses that are kept. -/
theorem Verdict.Says.satisfiesGiven (answer : Verdict.Says s (.satisfiable sol)) :
    sol.satisfiesGiven s.clauses = true := by
  obtain ⟨-, -, clauses⟩ := answer
  rw [Solution.satisfiesGiven, List.all_eq_true]
  intro c hc
  obtain ⟨r, hr⟩ := ClauseStore.mem_toList.1 hc
  obtain ⟨l, hl, true⟩ := clauses r c hr
  rw [Bool.or_eq_true]
  refine .inr (List.any_eq_true.2 ⟨l, hl, ?_⟩)
  rw [Assignment.isTrue, show sol.assignment.litValue? l = some Bool.true from true]

/-- Whether the answer is a solution. -/
def Verdict.isSatisfiable : Verdict → Bool
  | .satisfiable _ => true
  | _ => false

theorem Verdict.isSatisfiable_iff {v : Verdict} :
    v.isSatisfiable = true ↔ ∃ sol, v = .satisfiable sol := by
  cases v <;> simp [isSatisfiable]

/-! ## Refutations -/

/-- The references are those of clauses that were added, in increasing order, and no valuation
    satisfies these clauses at once. -/
structure Refutation.Core (w : Refutation) (h : List Event) (refs : List ClauseRef) : Prop where
  /-- The references increase. -/
  increasing : refs.Pairwise (· < ·)
  /-- They are those of clauses that were added and kept, not of learned ones. -/
  given : ∀ r ∈ refs, ∃ c ls provenance a, w.clauses.get? r = some c ∧ c.learned = false ∧
    .added ls provenance a ∈ h ∧ a.ref? = some r ∧ ∀ l, l ∈ c.literals ↔ l ∈ ls
  /-- The clauses have no solution. -/
  unsatisfiable : ∀ m : Valuation,
    ¬ ∀ r ∈ refs, ∀ c, w.clauses.get? r = some c → m.Satisfies c.literals

/-- A valuation fails on a clause that was added and kept. -/
theorem Refutation.Core.fails {refs : List ClauseRef} (core : w.Core h refs) (m : Valuation) :
    ∃ ls provenance a, .added ls provenance a ∈ h ∧ a.ref?.isSome = true ∧
      ¬ m.Satisfies ls := by
  by_contra all
  refine core.unsatisfiable m fun r hr c hc => ?_
  obtain ⟨d, ls, provenance, a, hd, -, mem, ref, same⟩ := core.given r hr
  cases hd.symm.trans hc
  refine (Valuation.satisfies_congr same).2 ?_
  by_contra not
  exact all ⟨ls, provenance, a, mem, by rw [ref]; rfl, not⟩

/-- Whether the answer is a refutation. -/
def Verdict.isUnsatisfiable : Verdict → Bool
  | .unsatisfiable _ => true
  | _ => false

theorem Verdict.isUnsatisfiable_iff {v : Verdict} :
    v.isUnsatisfiable = true ↔ ∃ w, v = .unsatisfiable w := by
  cases v <;> simp [isUnsatisfiable]

/-- The requirements of a refutation form a core of the history. -/
theorem Records.core (records : Records h s) (idle : s.Idle)
    (answer : Verdict.Says s (.unsatisfiable w)) :
    Yields w.conflictRequirements (w.Core h) := by
  obtain ⟨c, hc, explains⟩ := answer
  refine (explains.conflictRequirements_yields idle.grounded idle.root
    (idle.refuted c hc)).mono fun refs ⟨increasing, given, unsatisfiable⟩ =>
      ⟨increasing, fun r hr => ?_, unsatisfiable⟩
  obtain ⟨d, hw, hd, isGiven⟩ := given r hr
  obtain ⟨ls, provenance, a, mem, ref, same⟩ := records.given r d hd isGiven
  exact ⟨d, ls, provenance, a, hw, isGiven, mem, ref, fun l =>
    same.mem_iff.trans Clause.mem_ofList⟩

/-! ## Whole histories -/

variable {π β : Type} [Policy π] [Termination β] {budget : β} {policy : π} {o : Outcome π}

/-- A search is recorded as an answer at the end of the history. -/
theorem Reached.answered (run : Reached skip h s) (e : s.solve budget policy = .ok o) :
    o.solver.Idle ∧ Records (h ++ [.answered o.verdict]) o.solver ∧
      o.verdict.Says o.solver :=
  ⟨(run.solve e).idle, (run.solve e).records, (Solver.solve_answers run.idle e).2.2⟩

theorem mem_append_answered {v : Verdict} {ls : List Lit} {provenance : Option String}
    {a : Added} : .added ls provenance a ∈ h ++ [.answered v] ↔ .added ls provenance a ∈ h := by
  simp

/-- After any history, a solution gives a value to exactly the variables of the problem, and in
    every clause that was added without an error it makes a literal true. -/
theorem solution_satisfies (run : Reached skip h s) (e : s.solve budget policy = .ok o)
    (answer : o.verdict = .satisfiable sol) :
    (∀ v, (sol.value? v).isSome = true ↔ Registered h v) ∧
      (∀ ls provenance a, .added ls provenance a ∈ h → a.error? = none →
        ∃ l ∈ ls, sol.litValue? l = some true) ∧
      sol.satisfiesGiven o.solver.clauses = true := by
  obtain ⟨-, records, answered⟩ := run.answered e
  rw [answer] at records answered
  refine ⟨fun v => ?_, fun ls provenance a mem => ?_, answered.satisfiesGiven⟩
  · rw [answered.2.1, records.knows, registered_append]
    refine or_iff_left ?_
    rintro (e | ⟨_, _, _, e, -⟩) <;> cases e
  · exact records.satisfied answered (mem_append_answered.2 mem)

theorem solution_satisfies_three_rules : ∃ h s sol, ∃ o : Outcome LowestFirst,
    Reached true h s ∧ s.solve Budget.unlimited LowestFirst.mk = .ok o ∧
    o.verdict = .satisfiable sol ∧ Passed h [⟨1, false⟩] ∧
      (∀ v, (sol.value? v).isSome = true ↔ Registered h v) ∧
      (∀ ls provenance a, .added ls provenance a ∈ h → a.error? = none →
        ∃ l ∈ ls, sol.litValue? l = some true) ∧
      sol.satisfiesGiven o.solver.clauses = true := by
  have answer : ((Solver.new true).addAll [([⟨1, true⟩, ⟨2, true⟩], none), ([⟨1, false⟩], none),
      ([⟨3, true⟩, ⟨3, false⟩], none)] >>= fun s =>
        s.solve Budget.unlimited LowestFirst.mk).map (·.verdict.isSatisfiable) = .ok true := by
    cbv
  obtain ⟨h, s, o, run, e, answer, passed⟩ := Reached.exists_of_map answer
  obtain ⟨sol, answer⟩ := Verdict.isSatisfiable_iff.1 answer
  have unit : Passed h [⟨1, false⟩] := (passed _).2 ⟨_, .tail _ (.head _), rfl⟩
  exact ⟨h, s, sol, o, run, e, answer, unit, solution_satisfies run e answer⟩

/-- After any history, the requirements of a refutation are clauses that were added and that no
    valuation satisfies at once, so none satisfies all that were added. -/
theorem requirements_core (run : Reached skip h s) (e : s.solve budget policy = .ok o)
    (answer : o.verdict = .unsatisfiable w) :
    (∃ refs, w.conflictRequirements = .ok refs ∧ w.Core h refs) ∧
      ∀ m : Valuation, ∃ ls provenance a, .added ls provenance a ∈ h ∧ a.ref?.isSome = true ∧
        ¬ m.Satisfies ls := by
  obtain ⟨idle, records, answered⟩ := run.answered e
  rw [answer] at records answered
  obtain ⟨refs, requirements, core⟩ := records.core idle answered
  have core : w.Core h refs := by
    refine ⟨core.increasing, fun r hr => ?_, core.unsatisfiable⟩
    simpa only [mem_append_answered] using core.given r hr
  exact ⟨⟨refs, requirements, core⟩, core.fails⟩

theorem requirements_core_four_rules : ∃ h s w, ∃ o : Outcome LowestFirst,
    Reached true h s ∧ s.solve Budget.unlimited LowestFirst.mk = .ok o ∧
    o.verdict = .unsatisfiable w ∧ (∃ refs, w.conflictRequirements = .ok refs ∧ w.Core h refs) ∧
      ∀ m : Valuation, ∃ ls provenance a, .added ls provenance a ∈ h ∧ a.ref?.isSome = true ∧
        ¬ m.Satisfies ls := by
  have answer : ((Solver.new true).addAll [([⟨1, true⟩, ⟨2, false⟩], none),
      ([⟨1, false⟩, ⟨2, false⟩], none), ([⟨1, true⟩, ⟨2, true⟩], none),
      ([⟨1, false⟩, ⟨2, true⟩], none)] >>= fun s =>
        s.solve Budget.unlimited LowestFirst.mk).map (·.verdict.isUnsatisfiable) = .ok true := by
    cbv
  obtain ⟨h, s, o, run, e, answer, -⟩ := Reached.exists_of_map answer
  obtain ⟨w, answer⟩ := Verdict.isUnsatisfiable_iff.1 answer
  exact ⟨h, s, w, o, run, e, answer, requirements_core run e answer⟩

/-- Whether a search that does not give up finds a solution is decided by the clauses that were
    added, those that failed or were refused included. -/
theorem Reached.satisfiable_iff (run : Reached skip h s) (e : s.solve budget policy = .ok o)
    (known : o.verdict ≠ .unknown) :
    o.verdict.isSatisfiable = true ↔ ∃ m : Valuation, ∀ ls, Passed h ls → m.Satisfies ls := by
  obtain ⟨idle, records, answered⟩ := run.answered e
  cases answer : o.verdict with
  | satisfiable sol =>
    rw [answer] at records answered
    refine iff_of_true rfl ⟨sol.valuation, ?_⟩
    rintro ls ⟨provenance, a, mem⟩
    have mem := (mem_append_answered (v := .satisfiable sol)).2 mem
    have accepted := records.accepted answered.1 ls provenance a mem
    exact Solution.satisfies_of_true (records.satisfied answered mem accepted)
  | unsatisfiable w =>
    rw [answer] at records answered
    refine iff_of_false nofun ?_
    rintro ⟨m, satisfies⟩
    obtain ⟨refs, -, core⟩ := records.core idle answered
    obtain ⟨ls, provenance, a, mem, -, not⟩ := core.fails m
    exact not (satisfies ls ⟨provenance, a, mem_append_answered.1 mem⟩)
  | unknown => exact absurd answer known

end ClauseLearning
