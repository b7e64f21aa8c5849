/-
  The solution that is found by deciding on the lowest variable first.

  Model. Two valuations are compared by the lowest variable of the problem on which they differ,
  and the one that makes it true is the greater one (`Valuation.LexLe`). Deciding on the lowest
  variable without a value, and making it true, keeps the trail in order; so does going back. On
  a trail in order a literal that is false was forced by decisions on lower variables.

  Rule. `lowestFirst_greatest`: after every history the solution found so is the greatest model of
  the given clauses. So it does not depend on the history but for its variables and clauses.
-/
import ClauseLearning.Proofs.Trail.InOrder
import ClauseLearning.Proofs.Solver.Inversion
import ClauseLearning.Proofs.Solver.Preserved

namespace ClauseLearning

open Round (Steps)

/-! ## Comparing valuations -/

namespace Valuation

variable {among : Var → Prop} {m m' : Valuation}

/-- The valuations agree, or the second one makes the lowest variable true on which they differ;
    only the given variables count. -/
def LexLe (among : Var → Prop) (m m' : Valuation) : Prop :=
  (∀ v, among v → m v = m' v) ∨
    ∃ v, among v ∧ m v = false ∧ m' v = true ∧ ∀ w, among w → w < v → m w = m' w

/-- Nothing is greater than a valuation whose false variables have to be false if all variables
    below are as they are. -/
theorem lexLe_of_forced (forced : ∀ v, among v → m' v = false →
    (∀ w, among w → w < v → m w = m' w) → m v = false) : m.LexLe among m' := by
  by_cases agree : ∀ v, among v → m v = m' v
  · exact .inl agree
  · simp only [not_forall] at agree
    classical
    obtain ⟨mem, differ⟩ := Nat.find_spec agree
    have below : ∀ w, among w → w < Nat.find agree → m w = m' w := by
      intro w hw lt
      have same := Nat.find_min agree lt
      simp only [not_exists, not_not] at same
      exact same hw
    refine .inr ⟨Nat.find agree, mem, ?_⟩
    cases e : m' (Nat.find agree) with
    | false => exact absurd ((forced _ mem e below).trans e.symm) differ
    | true =>
      rw [e, Bool.not_eq_true] at differ
      exact ⟨differ, rfl, below⟩

/-- Valuations that are not greater than each other agree. -/
theorem LexLe.antisymm (h : m.LexLe among m') (h' : m'.LexLe among m) :
    ∀ v, among v → m v = m' v := by
  rcases h with agree | ⟨v, hv, false, true, below⟩
  · exact agree
  rcases h' with agree | ⟨w, hw, false', true', below'⟩
  · exact fun u hu => (agree u hu).symm
  rcases Nat.lt_trichotomy v w with lt | rfl | gt
  · have := below' v hv lt
    rw [false, true] at this
    cases this
  · rw [false] at true'
    cases true'
  · have := below w hw gt
    rw [false', true'] at this
    cases this

end Valuation

/-! ## Trails in order -/

namespace Search

variable {β : Type} [Termination β] {q q' : Search LowestFirst β} {n : Nat}

/-- A round that decides on the lowest variable leaves the trail in order. -/
theorem inOrder_of_goesOn (h : q.solver.Searching) (inOrder : q.solver.trail.InOrder)
    (round : q.GoesOn q') : q'.solver.trail.InOrder := by
  cases round with
  | learns goesOn propagated conflict above resolved starts =>
    have after := (Solver.propagate_yields h).of_ok propagated
    have inOrder := inOrder.grows h.grounded.trail after.trail
    obtain ⟨k, t, decided, back, ext⟩ := (after.resolved conflict above resolved).back
    exact (inOrder.backtracks back).grows decided ext
  | @decides s s' a v asks answer named unassigned decided =>
    obtain ⟨-, propagated, open', -⟩ := asks
    have after := (Solver.propagate_yields h).of_ok propagated
    have searching := after.searching open'
    have inOrder := inOrder.grows h.grounded.trail after.trail
    cases answer
    obtain ⟨-, -, -, opens⟩ :=
      (Solver.decideOn_yields searching after.done unassigned true).of_ok decided
    refine inOrder.opens searching.grounded.trail opens rfl fun w known lt => ?_
    have assigned := (Assignment.lowest_of_lowestUnassigned? named).2 w lt
    rcases searching.grounded.trail.mem_or_neg_mem (l := ⟨w, true⟩) known assigned with true | false
    · exact ⟨_, true, rfl⟩
    · exact ⟨_, false, rfl⟩

theorem inOrder_of_steps (h : q.solver.Searching) (inOrder : q.solver.trail.InOrder)
    (steps : Steps round n q q') : q'.solver.trail.InOrder := by
  induction steps with
  | none => exact inOrder
  | more before last ih =>
    have searching := (searching_of_steps h before).1
    exact inOrder_of_goesOn searching (ih h inOrder) (cases_of_round last)

/-- A solution is the assignment of a solver whose trail is in order. -/
theorem exists_of_satisfiable {o : Outcome LowestFirst} {sol : Solution}
    (h : q.solver.Searching) (inOrder : q.solver.trail.InOrder) (e : q.run = .ok o)
    (answer : o.verdict = .satisfiable sol) :
    ∃ s : Solver, s.Searching ∧ s.trail.InOrder ∧ q.solver.Follows s ∧
      (∀ v, s.assignment.isUnassigned v = false) ∧ sol = ⟨s.assignment⟩ := by
  obtain ⟨n, q', steps, last⟩ := steps_of_run h e
  obtain ⟨searching, follows⟩ := searching_of_steps h steps
  have inOrder := inOrder_of_steps h inOrder steps
  have answers : q'.Answers o := cases_of_round last
  cases answers with
  | stops => cases answer
  | refutes => cases answer
  | @succeeds s s' status goesOn propagated open' complete finishes left =>
    cases answer
    have after := (Solver.propagate_yields searching).of_ok propagated
    rw [Solver.isComplete, beq_iff_eq] at complete
    exact ⟨s, after.searching open', inOrder.grows searching.grounded.trail after.trail,
      follows.trans after.follows,
      (Assignment.complete_iff after.sound.grounded.trail.counted).1 complete, rfl⟩

end Search

/-! ## The greatest model -/

namespace Solver

variable {s s' : Solver} {m : Valuation}

theorem Follows.models (h : s.Follows s') (models : s.Models m) : s'.Models m := by
  intro r c' hc' given
  obtain ⟨c, hc, same⟩ := h.given r c' hc' given
  exact same.satisfies_iff.2 (models r c hc (same.learned.symm.trans given))

/-- The true literals hold in the assignment, taken as a solution. -/
theorem Sound.holds_valuation (h : s.Sound) {l : Lit} (hl : l ∈ s.trail.literals) :
    l.Holds (Solution.valuation ⟨s.assignment⟩) :=
  Solution.holds_of_litValue? (h.grounded.trail.litValue?_eq hl)

/-- No model is greater than the assignment of a trail in order. -/
theorem Sound.lexLe_of_inOrder (h : s.Sound) (inOrder : s.trail.InOrder)
    (complete : ∀ v, s.assignment.isUnassigned v = false) (models : s.Models m) :
    m.LexLe s.trail.Knows (Solution.valuation ⟨s.assignment⟩) := by
  refine Valuation.lexLe_of_forced fun v known false agree => ?_
  have coherent := h.grounded.trail.toCoherent
  have mem : ⟨v, Bool.false⟩ ∈ s.trail.literals := by
    refine (coherent.mem_or_neg_mem (l := ⟨v, Bool.false⟩) known (complete v)).resolve_right ?_
    intro true
    have holds : Solution.valuation ⟨s.assignment⟩ v = Bool.true := h.holds_valuation true
    rw [false] at holds
    cases holds
  obtain ⟨i, hi⟩ := List.getElem?_of_mem mem
  -- the decisions in front are below `v`, so the valuation makes them true
  refine h.grounded.holds_of_decisions (fun r c hc => h.derived.satisfies models hc)
    (fun j limit le d hd => ?_) hi
  obtain ⟨lt, -⟩ := inOrder.lt_of_negative coherent hi rfl limit le hd
  have decided := List.mem_of_getElem? hd
  exact (agree d.var (coherent.knows_of_mem decided) lt).trans (h.holds_valuation decided)

end Solver

/-- A solution that is a model of the given clauses, and no model is greater. -/
structure Solution.Greatest (sol : Solution) (h : List Event) (s : Solver) : Prop where
  /-- It satisfies the given clauses. -/
  models : s.Models sol.valuation
  /-- What satisfies them is not greater. -/
  greatest : ∀ m, s.Models m → m.LexLe (Registered h) sol.valuation

/-- The histories have the same variables and the same clauses, in any order and each any number
    of times. -/
structure SameProblem (h h' : List Event) : Prop where
  /-- The variables are the same. -/
  vars : ∀ v, Registered h v ↔ Registered h' v
  /-- The clauses of the first history are in the second one. -/
  forth : ∀ ls, Passed h ls → ∃ ls', Passed h' ls' ∧ ∀ l, l ∈ ls' ↔ l ∈ ls
  /-- The clauses of the second history are in the first one. -/
  back : ∀ ls, Passed h' ls → ∃ ls', Passed h ls' ∧ ∀ l, l ∈ ls' ↔ l ∈ ls

variable {h h' : List Event} {s s' : Solver} {skip : Bool} {β : Type} [Termination β] {budget : β}
  {o : Outcome LowestFirst} {sol : Solution} {m : Valuation}

/-- As long as the problem is open its models are those of the clauses that were added. -/
theorem Records.models_iff (records : Records h s) (feasible : s.status.infeasible? = none) :
    s.Models m ↔ ∀ ls, Passed h ls → m.Satisfies ls := by
  constructor
  · rintro models ls ⟨provenance, a, mem⟩
    have accepted := records.accepted feasible ls provenance a mem
    cases a with
    | kept r =>
      obtain ⟨c, hc, same⟩ := records.kept ls provenance _ r mem rfl
      refine (Valuation.satisfies_congr fun l => ?_).1 (models r c hc same.learned)
      exact same.mem_iff.trans Clause.mem_ofList
    | skipped c =>
      obtain ⟨l, hl, hn⟩ := records.skipped ls provenance c mem
      by_cases holds : l.Holds m
      · exact ⟨l, hl, holds⟩
      · exact ⟨-l, hn, Lit.holds_neg.2 holds⟩
    | infeasible r => cases accepted
    | refused => cases accepted
  · intro satisfies r c hc given
    obtain ⟨ls, provenance, a, mem, -, same⟩ := records.given r c hc given
    refine (Valuation.satisfies_congr fun l => ?_).2 (satisfies ls ⟨provenance, a, mem⟩)
    exact same.mem_iff.trans Clause.mem_ofList

/-- A problem with a solution is open. -/
theorem Reached.open_of_satisfiable (run : Reached skip h s)
    (e : s.solve budget LowestFirst.mk = .ok o) (answer : o.verdict = .satisfiable sol) :
    s.status.infeasible? = none := by
  cases hc : s.status.infeasible? with
  | none => rfl
  | some c =>
    obtain ⟨w, refuted, -⟩ := Solver.solve_infeasible run.idle hc budget LowestFirst.mk
    cases refuted.symm.trans e
    cases answer

/-- The solution found by deciding on the lowest variable first is the greatest model. -/
theorem Reached.greatest (run : Reached skip h s) (e : s.solve budget LowestFirst.mk = .ok o)
    (answer : o.verdict = .satisfiable sol) : sol.Greatest h s := by
  have feasible := run.open_of_satisfiable e answer
  obtain ⟨-, follows, answered⟩ := Solver.solve_answers run.idle e
  rw [answer] at answered
  refine ⟨fun r c hc _ => ?_, fun m models => ?_⟩
  · obtain ⟨c', hc', same⟩ := follows.clauses r c hc
    exact same.satisfies_iff.1 (Solution.satisfies_of_true (answered.2.2 r c' hc'))
  · rw [Solver.solve_eq feasible] at e
    have begins := run.idle.searching feasible
    have inOrder := Trail.inOrder_of_root run.idle.root
    obtain ⟨s', searching, inOrder, follows, complete, rfl⟩ := Search.exists_of_satisfiable
      (q := Search.begun s budget LowestFirst.mk) begins inOrder e answer
    have known : s'.trail.Knows = Registered h :=
      funext fun v => propext ((follows.knows v).trans (run.records.knows v))
    exact known ▸ searching.lexLe_of_inOrder inOrder complete (follows.models models)

/-- The solution values of a problem: those of its registered variables. -/
theorem Reached.value?_eq (run : Reached skip h s) (e : s.solve budget LowestFirst.mk = .ok o)
    (answer : o.verdict = .satisfiable sol) (v : Var) :
    Registered h v ∧ sol.value? v = some (sol.valuation v) ∨
      ¬ Registered h v ∧ sol.value? v = none := by
  obtain ⟨-, follows, answered⟩ := Solver.solve_answers run.idle e
  rw [answer] at answered
  have value : (sol.value? v).isSome = true ↔ Registered h v :=
    (answered.2.1 v).trans ((follows.knows v).trans (run.records.knows v))
  rw [← value, Solution.valuation]
  cases sol.value? v with
  | none => exact .inr ⟨Bool.false_ne_true, rfl⟩
  | some b => exact .inl ⟨rfl, rfl⟩

/-- After any history, the solution found by deciding on the lowest variable first is the greatest
    model of the given clauses over the registered variables. So after two histories with the same
    variables and clauses the values are the same. -/
theorem lowestFirst_greatest (run : Reached skip h s)
    (e : s.solve budget LowestFirst.mk = .ok o) (answer : o.verdict = .satisfiable sol) :
    sol.Greatest h s ∧
    ∀ {skip' h' s'} {β' : Type} [Termination β'] {budget' : β'} {o' : Outcome LowestFirst} {sol'},
      Reached skip' h' s' → s'.solve budget' LowestFirst.mk = .ok o' →
        o'.verdict = .satisfiable sol' → SameProblem h h' →
          ∀ v, sol.value? v = sol'.value? v := by
  have greatest := run.greatest e answer
  refine ⟨greatest, ?_⟩
  intro skip' h' s' β' _ budget' o' sol' run' e' answer' same v
  have greatest' := run'.greatest e' answer'
  have models : ∀ m, s.Models m ↔ s'.Models m := by
    intro m
    rw [run.records.models_iff (run.open_of_satisfiable e answer),
      run'.records.models_iff (run'.open_of_satisfiable e' answer')]
    constructor
    · intro satisfies ls passed
      obtain ⟨ls', passed', e⟩ := same.back ls passed
      exact (Valuation.satisfies_congr e).1 (satisfies ls' passed')
    · intro satisfies ls passed
      obtain ⟨ls', passed', e⟩ := same.forth ls passed
      exact (Valuation.satisfies_congr e).1 (satisfies ls' passed')
  have le := greatest.greatest _ ((models _).2 greatest'.models)
  have ge := greatest'.greatest _ ((models _).1 greatest.models)
  rw [← funext fun v => propext (same.vars v)] at ge
  rcases run.value?_eq e answer v with ⟨known, value⟩ | ⟨unknown, value⟩
  · rcases run'.value?_eq e' answer' v with ⟨-, value'⟩ | ⟨unknown, -⟩
    · rw [value, value', ge.antisymm le v known]
    · exact absurd ((same.vars v).1 known) unknown
  · rcases run'.value?_eq e' answer' v with ⟨known, -⟩ | ⟨-, value'⟩
    · exact absurd ((same.vars v).2 known) unknown
    · rw [value, value']

theorem lowestFirst_greatest_three_rules : ∃ h s sol, ∃ o : Outcome LowestFirst,
    Reached true h s ∧ s.solve Budget.unlimited LowestFirst.mk = .ok o ∧
    o.verdict = .satisfiable sol ∧ Passed h [⟨1, false⟩, ⟨2, false⟩] ∧ sol.Greatest h s ∧
    ∀ {skip' h' s'} {β' : Type} [Termination β'] {budget' : β'} {o' : Outcome LowestFirst} {sol'},
      Reached skip' h' s' → s'.solve budget' LowestFirst.mk = .ok o' →
        o'.verdict = .satisfiable sol' → SameProblem h h' →
          ∀ v, sol.value? v = sol'.value? v := by
  have answer : ((Solver.new true).addAll [([⟨1, false⟩, ⟨2, true⟩], none),
      ([⟨1, false⟩, ⟨2, false⟩], none), ([⟨1, true⟩, ⟨3, true⟩], none)] >>= fun s =>
        s.solve Budget.unlimited LowestFirst.mk).map (·.verdict.isSatisfiable) = .ok true := by
    cbv
  obtain ⟨h, s, o, run, e, answer, passed⟩ := Reached.exists_of_map answer
  obtain ⟨sol, answer⟩ := Verdict.isSatisfiable_iff.1 answer
  have conflicting : Passed h [⟨1, false⟩, ⟨2, false⟩] :=
    (passed _).2 ⟨_, .tail _ (.head _), rfl⟩
  exact ⟨h, s, sol, o, run, e, answer, conflicting, lowestFirst_greatest run e answer⟩

end ClauseLearning
