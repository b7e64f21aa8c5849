/-
  The rounds of a search.

  Model. A round asks the policy in a state without a conflict in which a variable has no value
  (`Search.Asks`). The policy does its part when it names such a variable (`Search.Named`). What
  an answer says is `Verdict.Says`: a solution gives the variables values and satisfies every
  clause, and a refutation explains a clause that is false at the root.

  Rule. `round_ends`: a round goes on with a solver that is searching and has made progress, or it
  answers, with the solver back at the root. It meets a fault only when the policy names no
  unassigned variable, or when the 64-bit words of the statistics are full (`Search.Fails`).
-/
import ClauseLearning.Proofs.Solver.Search

namespace ClauseLearning

/-- What an answer says of the solver that gives it. -/
def Verdict.Says (s : Solver) : Verdict → Prop
  | .satisfiable sol =>
    s.status.infeasible? = none ∧ (∀ v, (sol.value? v).isSome = true ↔ s.trail.Knows v) ∧
      ∀ r c, s.clauses.get? r = some c → ∃ l ∈ c.literals, sol.litValue? l = some true
  | .unsatisfiable w => ∃ c, s.status.infeasible? = some c ∧ w.Explains s.propagation c
  | .unknown => True

namespace Search

variable {π β : Type} [Policy π] [Termination β]

/-- The round asks the policy, with the solver in the state `s`. -/
def Asks (q : Search π β) (s : Solver) : Prop :=
  (Termination.poll q.budget).1 = false ∧ q.solver.propagate = .ok s ∧
    (∀ c, s.status ≠ .conflicting c) ∧ s.isComplete = false

/-- The policy names an unassigned variable when it is asked in the state `s`. -/
def Named (policy : π) (s : Solver) : Prop :=
  ∃ a v, Policy.next policy s.assignment s.clauses = .ok a ∧ a.var? = some v ∧
    s.assignment.isUnassigned v = true

/-- The round learns a clause, and the statistics have no room for the number of its literals or
    for the number of levels it leads back. -/
def Overflows (q : Search π β) : Prop :=
  ∃ s c d, q.solver.propagate = .ok s ∧ s.status = .conflicting c ∧
    s.propagation.firstUip c = .ok d ∧
    (s.statistics.learnedLength.Full d.literals.length ∨
      s.statistics.backtrack.Full (s.level - d.backjump))

/-- The faults a round can meet. -/
inductive Fails (q : Search π β) : Fault → Prop
  /-- The statistics are full. -/
  | overflow (h : q.Overflows) : Fails q .overflow
  /-- The policy was asked and has not named an unassigned variable. -/
  | policy {s : Solver} {e : Fault} (asked : q.Asks s) (no : ¬ Named q.policy s) : Fails q e

/-- The second search goes on with the policy and the condition of the first one, or with those
    left by a decision. -/
def Passes (q q' : Search π β) : Prop :=
  (q'.policy = q.policy ∧ q'.budget = (Termination.poll q.budget).2) ∨
    ∃ s a, q.Asks s ∧ Policy.next q.policy s.assignment s.clauses = .ok a ∧
      q'.policy = a.policy ∧ q'.budget = Termination.spend (Termination.poll q.budget).2

/-- What a round leaves behind. -/
def Rounded (q : Search π β) : Round (Search π β) (Outcome π) → Prop
  | .more q' => q'.solver.Searching ∧ q.solver.Follows q'.solver ∧ q.Passes q' ∧
      ∃ s : Solver, s.Sound ∧ q.solver.Follows s ∧ q.solver.trail.Extends s.trail ∧
        s.trail.Progresses q'.solver.trail
  | .done o => o.solver.Idle ∧ q.solver.Follows o.solver ∧ o.verdict.Says o.solver ∧
      (o.verdict = .unknown → (Termination.poll q.budget).1 = true)

/-! ## The parts of a round -/

variable {s : Solver} {c : ClauseRef}

/-- The policy is asked, and its variable decided on. -/
theorem decide_ends (h : s.Searching) (done : s.propagation.next = s.trail.length) (policy : π)
    (budget : β) :
    Ends (decide ⟨s, policy, budget⟩)
      (fun q' => q'.solver.Searching ∧ s.Follows q'.solver ∧
        s.trail.Progresses q'.solver.trail ∧
        ∃ a, Policy.next policy s.assignment s.clauses = .ok a ∧ q'.policy = a.policy ∧
          q'.budget = Termination.spend budget)
      fun _ => ¬ Named policy s := by
  have counted : s.assignment.Counted := h.grounded.trail.counted
  unfold decide
  dsimp only
  rw [difference_eq counted.numAssigned_le]
  refine .ok_bind ?_
  by_cases named : Named policy s
  · obtain ⟨a, v, answer, hv, unassigned⟩ := named
    refine Yields.ends ?_
    rw [answer]
    refine .ok_bind ?_
    rw [hv]
    dsimp only
    rw [if_neg (by simp [unassigned])]
    exact (Solver.decideOn_noteConsumed_yields h done unassigned _ _).bind
      fun s' ⟨searching, follows, progress, _⟩ =>
        .pure ⟨searching, follows, progress, a, rfl, rfl, rfl⟩
  · cases answer : Policy.next policy s.assignment s.clauses with
    | error e => exact named
    | ok a =>
      simp only [bind, Except.bind]
      cases hv : a.var? with
      | none => exact named
      | some v =>
        dsimp only
        split
        · exact named
        · rename_i unassigned
          exact absurd ⟨a, v, answer, hv, by simpa using unassigned⟩ named

end Search

namespace Solver

variable {s : Solver} {c : ClauseRef}

/-- What dealing with a conflict leaves behind. -/
def Dealt (s : Solver) : Option Verdict × Solver → Prop
  | (none, s') => s'.Searching ∧ s.Follows s' ∧ s.trail.Progresses s'.trail
  | (some v, s') => s'.Idle ∧ s.Follows s' ∧ v.Says s' ∧ v ≠ .unknown

/-- At the root a conflict refutes the problem, above it a clause is learned. -/
theorem onConflict_ends {n : Nat} (h : s.Sound) (hs : s.status = .conflicting c)
    (done : s.propagation.next = s.trail.length) (conflict : s.propagation.Conflicts c)
    (current : ∀ m ∈ s.trail.limits, m ≤ n) (watchful : s.propagation.Watchful none n) :
    Ends (s.onConflict c) s.Dealt fun e => e = .overflow ∧
      ∃ d, s.propagation.firstUip c = .ok d ∧
        (s.statistics.learnedLength.Full d.literals.length ∨
          s.statistics.backtrack.Full (s.level - d.backjump)) := by
  unfold onConflict
  split
  · rename_i atRoot
    rw [Trail.atRoot, beq_iff_eq] at atRoot
    have root : s.level = 0 := atRoot
    have sound : Sound { s with status := .infeasible c } :=
      ⟨h.grounded, h.derived, h.learned, h.bounded⟩
    rw [hs]
    refine Yields.ends (.ok_bind ?_)
    refine (refute_yields sound root conflict.falsifies).bind
      fun w explains => .pure ⟨?_, ?_, ?_, ?_⟩
    · refine ⟨sound, root, fun e => ?_, fun d hd => ?_⟩
      · cases e
      · cases hd
        exact conflict.falsifies
    · have rearranges : s.clauses.Rearranges s.clauses := .refl _
      exact .of_rearranges rearranges fun _ => Iff.rfl
    · exact ⟨c, rfl, explains⟩
    · intro e
      cases e
  · rename_i above
    have pos : 0 < s.level := by
      rw [Trail.atRoot, beq_iff_eq] at above
      exact Nat.pos_of_ne_zero above
    obtain ⟨d, analysis, asserts⟩ := Propagation.firstUip_yields h.grounded conflict
    have below := Nat.le_of_lt (asserts.backjump_lt pos)
    rcases countLearned_cases s.statistics s.level below with ⟨st, counts⟩ | ⟨overflow, full⟩
    · refine Yields.ends ((resolveConflict_yields h pos done current watchful analysis asserts
        counts).bind fun s' resolved => ?_)
      rw [resolved.status, hs]
      have sound := resolved.sound
      refine .ok_bind (.pure ⟨⟨⟨sound.grounded, sound.derived, sound.learned, sound.bounded⟩,
        resolved.watchful, rfl⟩, ?_, resolved.trail⟩)
      exact ⟨resolved.follows.clauses, resolved.follows.given, resolved.follows.knows⟩
    · rw [resolveConflict_overflow analysis overflow]
      exact ⟨rfl, d, analysis, full⟩

/-- When every variable has a value, the assignment is a solution. -/
theorem succeed_yields (h : s.Searching) (done : s.propagation.next = s.trail.length)
    (complete : s.isComplete = true) :
    Yields s.succeed fun (v, s') => s'.Idle ∧ s.Follows s' ∧ v.Says s' ∧ v ≠ .unknown := by
  rw [isComplete, beq_iff_eq] at complete
  replace complete := (Assignment.complete_iff h.grounded.trail.counted).1 complete
  unfold succeed
  rw [h.status]
  refine .ok_bind ((leave_yields h.toSound h.watchful .solved rfl).bind
    fun s' ⟨idle, follows, clauses, status⟩ => .pure ⟨idle, follows, ⟨?_, fun v => ?_, ?_⟩, ?_⟩)
  · rw [status]
    rfl
  · rw [follows.knows]
    change (s.assignment.state v).value?.isSome = true ↔ (s.assignment.state v).isKnown = true
    have assigned : (s.assignment.state v).isUnassigned = false := complete v
    cases e : s.assignment.state v with
    | missing => exact iff_of_false Bool.false_ne_true Bool.false_ne_true
    | unassigned => rw [e] at assigned; cases assigned
    | assigned b => exact iff_of_true rfl rfl
  · intro r c hc
    rw [clauses] at hc
    have watchful : s.propagation.Watchful none s.trail.length := done ▸ h.watchful
    obtain ⟨l, hl, true⟩ := watchful.satisfied complete hc
    exact ⟨l, hl, h.grounded.trail.litValue?_eq true⟩
  · intro e
    cases e

end Solver

/-! ## The round -/

namespace Search

variable {π β : Type} [Policy π] [Termination β]

/-- A round goes on or answers, or it fails for one of the two reasons. -/
theorem round_ends {q : Search π β} (h : q.solver.Searching) : Ends q.round q.Rounded q.Fails := by
  obtain ⟨solver, policy, budget⟩ := q
  unfold round
  dsimp only
  cases polled : Termination.poll budget with
  | mk stop budget' =>
    dsimp only
    split
    · rename_i stop
      subst stop
      rw [h.status]
      refine Yields.ends (.ok_bind ((Solver.leave_yields h.toSound h.watchful .stopped
        rfl).bind fun s' ⟨idle, follows, clauses, status⟩ => .pure ⟨idle, follows, trivial, ?_⟩))
      intro _
      exact congrArg Prod.fst polled
    · rename_i go
      have go' : (Termination.poll budget).1 = false := by
        rw [polled]
        simpa using go
      obtain ⟨s, propagated, after⟩ := Solver.propagate_yields h
      rw [propagated]
      refine .ok_bind ?_
      rcases after.outcome with searching | ⟨c, status, conflict, n, current, watchful⟩
      · rw [searching.status]
        dsimp only
        split
        · rename_i complete
          refine Yields.ends ((Solver.succeed_yields searching after.done complete).bind
            fun (v, s') ⟨idle, follows, answer, known⟩ => .pure ⟨idle,
              after.follows.trans follows, answer, fun e => absurd e known⟩)
        · rename_i incomplete
          have asks : Asks ⟨solver, policy, budget⟩ s :=
            ⟨go', propagated, fun c => searching.status ▸ nofun, by simpa using incomplete⟩
          refine ((decide_ends searching after.done policy budget').mono (fun _ h => h)
            fun e no => Fails.policy asks no).bind
              fun q' ⟨searching', follows, progress, a, answer, passes⟩ => Yields.ends (.pure ?_)
          refine ⟨searching', after.follows.trans follows, .inr ⟨s, a, asks, answer, ?_⟩, s,
            after.sound, after.follows, after.trail, progress⟩
          rwa [polled]
      · rw [status]
        have deals : Ends (s.onConflict c) s.Dealt (Fails ⟨solver, policy, budget⟩) := by
          refine (Solver.onConflict_ends after.sound status after.done conflict current
            watchful).mono (fun _ h => h) ?_
          rintro _ ⟨rfl, d, analysis, full⟩
          exact .overflow ⟨s, c, d, propagated, status, analysis, full⟩
        refine deals.bind ?_
        rintro ⟨v, s'⟩ dealt
        cases v with
        | none =>
          obtain ⟨searching, follows, progress⟩ := dealt
          refine Yields.ends (.pure ⟨searching, after.follows.trans follows, .inl ⟨rfl, ?_⟩, s,
            after.sound, after.follows, after.trail, progress⟩)
          exact (congrArg Prod.snd polled).symm
        | some v =>
          obtain ⟨idle, follows, answer, known⟩ := dealt
          exact Yields.ends (.pure ⟨idle, after.follows.trans follows, answer,
            fun e => absurd e known⟩)

end Search

end ClauseLearning
