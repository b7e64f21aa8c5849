/-
  Learning preserves the problem.

  Model. What the given clauses entail is all that learning adds: learned clauses follow from
  clauses kept before them, and a literal of the root was forced by a clause whose other literals
  are false there. Both hold at any time in a sound solver (`Sound.satisfies_learned`,
  `Sound.holds_at_root`).

  Rule. `learning_preserves`: after every history what satisfies the given clauses satisfies what
  was learned and makes the literals of the root true. So the learned clauses can be added to
  another solver with these clauses, which keeps its models and its answers.
-/
import ClauseLearning.Proofs.Solver.Answers

namespace ClauseLearning

/-- What satisfies the clauses makes the literals of the root true. -/
theorem Propagation.Grounded.holds_at_root {p : Propagation} {m : Valuation} (h : p.Grounded)
    (satisfies : ∀ r c, p.clauses.get? r = some c → m.Satisfies c.literals) {i : Nat} {l : Lit}
    (hi : p.trail.literals[i]? = some l) (root : p.trail.levelOf l.var = 0) : l.Holds m := by
  -- no level begins up to the place
  have level : p.trail.levelAt i = 0 := (h.trail.level_eq i l hi).symm.trans root
  rw [Trail.levelAt, List.countP_eq_zero] at level
  exact h.holds_of_decisions satisfies (fun j limit le => absurd (decide_eq_true le)
    (level j limit)) hi

namespace Solver

variable {s s' : Solver} {m : Valuation} {ls : List Lit}

theorem mem_learnedClauses : ls ∈ s.learnedClauses ↔
    ∃ r ∈ s.learned, ∃ c, s.clauses.get? r = some c ∧ c.literals = ls := by
  simp only [learnedClauses, List.mem_filterMap, Array.mem_toList_iff, Option.map_eq_some_iff]

/-- The valuation satisfies the clauses that were given, not learned. -/
def Models (s : Solver) (m : Valuation) : Prop :=
  ∀ r c, s.clauses.get? r = some c → c.learned = false → m.Satisfies c.literals

/-- What satisfies the given clauses satisfies the learned ones. -/
theorem Sound.satisfies_learned (h : s.Sound) (models : s.Models m) (hl : ls ∈ s.learnedClauses) :
    m.Satisfies ls := by
  obtain ⟨r, -, c, hc, rfl⟩ := mem_learnedClauses.1 hl
  exact h.derived.satisfies models hc

/-- What satisfies the given clauses makes the literals of the root true. -/
theorem Sound.holds_at_root (h : s.Sound) (models : s.Models m) {l : Lit}
    (true : s.assignment.isTrue l = true) (root : s.trail.levelOf l.var = 0) : l.Holds m := by
  have mem : l ∈ s.propagation.trail.literals := h.grounded.trail.isTrue_iff.1 true
  obtain ⟨i, hi⟩ := List.getElem?_of_mem mem
  exact h.grounded.holds_at_root (fun r c hc => h.derived.satisfies models hc) hi root

/-- There are literals over the variables of learned clauses. -/
theorem Sound.lt_of_mem_learned (h : s.Sound) (hl : ls ∈ s.learnedClauses) :
    ∀ l ∈ ls, l.var < Lit.varBound := by
  obtain ⟨r, -, c, hc, rfl⟩ := mem_learnedClauses.1 hl
  exact fun l mem => h.bounded _ (h.grounded.known r c hc l mem)

/-- Searches of the two solvers that do not give up have answers of the same kind. -/
def Agrees (s s' : Solver) : Prop :=
  ∀ {π β π' β' : Type} [Policy π] [Termination β] [Policy π'] [Termination β'] {budget : β}
    {policy : π} {budget' : β'} {policy' : π'} {o : Outcome π} {o' : Outcome π'},
    s.solve budget policy = .ok o → s'.solve budget' policy' = .ok o' →
      o.verdict ≠ .unknown → o'.verdict ≠ .unknown →
        o.verdict.isSatisfiable = o'.verdict.isSatisfiable

end Solver

variable {h h' : List Event} {s s' : Solver} {skip skip' : Bool} {m : Valuation}
  {rules : List (List Lit × Option String)}

/-- Solvers with the same models have answers of the same kind. -/
theorem Reached.agrees (run : Reached skip h s) (run' : Reached skip' h' s')
    (same : ∀ m : Valuation, (∀ ls, Passed h ls → m.Satisfies ls) ↔
      ∀ ls, Passed h' ls → m.Satisfies ls) : s.Agrees s' := by
  intro _ _ _ _ _ _ _ _ _ _ _ _ o o' e e' known known'
  rw [Bool.eq_iff_iff, run.satisfiable_iff e known, run'.satisfiable_iff e' known']
  exact exists_congr same

/-- What satisfies clauses that include all that were added and kept is a model. -/
theorem Records.models (records : Records h s)
    (include' : ∀ ls provenance a, .added ls provenance a ∈ h → a.ref?.isSome = true →
      ∃ rule ∈ rules, rule.1 = ls)
    (satisfies : ∀ rule ∈ rules, m.Satisfies rule.1) : s.Models m := by
  intro r c hc isGiven
  obtain ⟨ls, provenance, a, mem, ref, same⟩ := records.given r c hc isGiven
  obtain ⟨rule, hr, rfl⟩ := include' ls provenance a mem (by rw [ref]; rfl)
  refine (Valuation.satisfies_congr fun l => ?_).2 (satisfies rule hr)
  exact same.mem_iff.trans Clause.mem_ofList

/-- After any history, what satisfies the given clauses satisfies the learned ones and makes the
    literals of the root true. Another solver with the clauses that were added and kept takes the
    learned clauses, which changes neither its models nor its answers. -/
theorem learning_preserves (run : Reached skip h s) :
    (∀ m, s.Models m → (∀ ls ∈ s.learnedClauses, m.Satisfies ls) ∧
      ∀ l, s.assignment.isTrue l = true → s.trail.levelOf l.var = 0 → l.Holds m) ∧
    ∀ skip' rules s', (Solver.new skip').addAll rules = .ok s' →
      (∀ ls provenance a, .added ls provenance a ∈ h → a.ref?.isSome = true →
        ∃ rule ∈ rules, rule.1 = ls) →
      (∀ m : Valuation, ((∀ rule ∈ rules, m.Satisfies rule.1) ∧
          ∀ ls ∈ s.learnedClauses, m.Satisfies ls) ↔ ∀ rule ∈ rules, m.Satisfies rule.1) ∧
        ∃ s'', s'.addAll (s.learnedClauses.map (·, none)) = .ok s'' ∧ s'.Agrees s'' := by
  have sound := run.idle.toSound
  refine ⟨fun m models => ⟨fun ls hl => sound.satisfies_learned models hl,
    fun l true root => sound.holds_at_root models true root⟩, ?_⟩
  intro skip' rules s' load include'
  have same : ∀ m : Valuation, ((∀ rule ∈ rules, m.Satisfies rule.1) ∧
      ∀ ls ∈ s.learnedClauses, m.Satisfies ls) ↔ ∀ rule ∈ rules, m.Satisfies rule.1 := by
    refine fun m => and_iff_left_of_imp fun satisfies ls hl => ?_
    exact sound.satisfies_learned (run.records.models include' satisfies) hl
  obtain ⟨h', run', passed⟩ := Reached.of_new load
  have literals : ∀ rule ∈ s.learnedClauses.map (·, (none : Option String)),
      ∀ l ∈ rule.1, l.var < Lit.varBound := by
    intro rule hr
    obtain ⟨ls, hl, rfl⟩ := List.mem_map.1 hr
    exact sound.lt_of_mem_learned hl
  obtain ⟨s'', more, -⟩ := run'.idle.addAll_yields literals
  obtain ⟨h'', run'', passed'⟩ := run'.addAll more
  refine ⟨same, s'', more, run'.agrees run'' fun m => ?_⟩
  have before : (∀ ls, Passed h' ls → m.Satisfies ls) ↔ ∀ rule ∈ rules, m.Satisfies rule.1 := by
    simp only [passed, forall_exists_index, and_imp, forall_apply_eq_imp_iff₂]
  have after : (∀ ls, Passed h'' ls → m.Satisfies ls) ↔
      (∀ rule ∈ rules, m.Satisfies rule.1) ∧ ∀ ls ∈ s.learnedClauses, m.Satisfies ls := by
    simp only [passed', or_imp, forall_and, before, List.mem_map, exists_exists_and_eq_and,
      exists_eq_right]
  rw [before, after, same]

theorem learning_preserves_two_rules : ∃ h s, Reached true h s ∧
    s.learnedClauses = [[⟨1, false⟩]] ∧
    (∀ m, s.Models m → (∀ ls ∈ s.learnedClauses, m.Satisfies ls) ∧
      ∀ l, s.assignment.isTrue l = true → s.trail.levelOf l.var = 0 → l.Holds m) ∧
    ∀ skip' rules s', (Solver.new skip').addAll rules = .ok s' →
      (∀ ls provenance a, .added ls provenance a ∈ h → a.ref?.isSome = true →
        ∃ rule ∈ rules, rule.1 = ls) →
      (∀ m : Valuation, ((∀ rule ∈ rules, m.Satisfies rule.1) ∧
          ∀ ls ∈ s.learnedClauses, m.Satisfies ls) ↔ ∀ rule ∈ rules, m.Satisfies rule.1) ∧
        ∃ s'', s'.addAll (s.learnedClauses.map (·, none)) = .ok s'' ∧ s'.Agrees s'' := by
  have learned : ((Solver.new true).addAll [([⟨1, false⟩, ⟨2, true⟩], none),
      ([⟨1, false⟩, ⟨2, false⟩], none)] >>= fun s =>
        s.solve Budget.unlimited LowestFirst.mk).map (·.solver.learnedClauses) =
          .ok [[⟨1, false⟩]] := by
    cbv
  obtain ⟨h, s, o, run, e, learned, -⟩ := Reached.exists_of_map learned
  exact ⟨_, o.solver, run.solve e, learned, learning_preserves (run.solve e)⟩

end ClauseLearning
