/-
  Sound solvers, and adding to them.

  Model. A solver is sound when its state of propagation is grounded, every learned clause
  follows from clauses kept before it, and the list of learned clauses holds such. Between
  searches it is at the root, and either watchful or known to have a clause that is false there
  (`Idle`).

  Rule. `register_yields` and `add_yields`: registering a variable and adding a clause keep a
  solver idle, and fail only for variables that no literal can be over.
-/
import ClauseLearning.Proofs.Solver.Learn

namespace ClauseLearning.Solver

open Propagation

/-- What holds of a solver at all times. -/
structure Sound (s : Solver) : Prop where
  /-- The trail rests on reasons. -/
  grounded : s.propagation.Grounded
  /-- Learned clauses follow from earlier ones. -/
  derived : s.clauses.Derived
  /-- The clauses listed as learned are learned. -/
  learned : ∀ r ∈ s.learned, ∃ c, s.clauses.get? r = some c ∧ c.learned = true
  /-- There are literals over the registered variables. -/
  bounded : ∀ v, s.trail.Knows v → v < Lit.varBound

/-- What holds of a solver between searches. -/
structure Idle (s : Solver) : Prop extends Sound s where
  /-- No decision level is open. -/
  root : s.level = 0
  /-- Unless the problem is known to have no solution, the watch lists are right. -/
  watchful : s.status.infeasible? = none → s.propagation.Watchful none s.propagation.next
  /-- If it is, the clause kept with the status is false. -/
  refuted : ∀ c, s.status.infeasible? = some c → s.propagation.Falsifies c

variable {s s' : Solver}

theorem idle_new (skip : Bool) : (new skip).Idle where
  grounded := grounded_empty
  derived := ClauseStore.derived_empty
  learned r h := by simp [new] at h
  bounded v h := absurd h (Trail.not_knows_empty v)
  root := rfl
  watchful _ := watchful_empty
  refuted c h := by cases h

/-! ## Variables -/

/-- The second solver has further variables and is the first one otherwise. -/
def Widens (s s' : Solver) : Prop :=
  ∃ p', s' = { s with propagation := p' } ∧ s.propagation.Widens p'

namespace Widens

theorem refl (s : Solver) : s.Widens s := ⟨s.propagation, rfl, .refl _⟩

theorem trans {s'' : Solver} (h : s.Widens s') (h' : s'.Widens s'') : s.Widens s'' := by
  obtain ⟨p', rfl, w⟩ := h
  obtain ⟨p'', rfl, w'⟩ := h'
  exact ⟨p'', rfl, w.trans w'⟩

theorem idle (w : s.Widens s') (h : s.Idle) (grounded : s'.propagation.Grounded)
    (bounded : ∀ v, s'.trail.Knows v → v < Lit.varBound) : s'.Idle := by
  obtain ⟨p', rfl, w⟩ := w
  have clauses : p'.clauses = s.clauses := w.clauses
  refine ⟨⟨grounded, ?_, ?_, bounded⟩, w.level.trans h.root, fun open' => ?_,
    fun c hc => w.falsifies (h.refuted c hc)⟩
  · change p'.clauses.Derived
    exact clauses ▸ h.derived
  · change ∀ r ∈ s.learned, ∃ c, p'.clauses.get? r = some c ∧ c.learned = true
    exact clauses ▸ h.learned
  · change p'.Watchful none p'.next
    exact w.next ▸ w.watchful (h.watchful open') grounded

end Widens

/-- A variable becomes part of the problem. -/
theorem register_yields (h : s.Idle) {v : Var} (hv : v < Lit.varBound) :
    Yields (s.register v) fun s' => s'.Idle ∧ s.Widens s' ∧
      ∀ w, s'.trail.Knows w ↔ w = v ∨ s.trail.Knows w := by
  have widened := fun s' (w : s.Widens s') => w.idle h
  obtain ⟨status, p, learned, statistics, skip⟩ := s
  unfold register
  dsimp only
  rw [if_neg (Nat.not_le.2 hv)]
  refine (Propagation.register_yields h.grounded v).bind fun p' ⟨grounded, w, knows⟩ => .pure ?_
  refine ⟨widened _ ⟨p', rfl, w⟩ grounded fun u hu => ?_, ⟨p', rfl, w⟩, knows⟩
  rcases (knows u).1 hu with rfl | hu
  · exact hv
  · exact h.bounded u hu

/-- A variable that becomes part of the problem has literals. -/
theorem lt_of_register {v : Var} (e : s.register v = .ok s') : v < Lit.varBound := by
  obtain ⟨status, p, learned, statistics, skip⟩ := s
  unfold register at e
  dsimp only at e
  split at e
  · cases e
  · exact Nat.lt_of_not_le ‹_›

theorem registerAll_yields (h : s.Idle) (ls : List Lit) (hv : ∀ l ∈ ls, l.var < Lit.varBound) :
    Yields (s.registerAll ls) fun s' => s'.Idle ∧ s.Widens s' ∧
      ∀ v, s'.trail.Knows v ↔ (∃ l ∈ ls, l.var = v) ∨ s.trail.Knows v := by
  refine Yields.foldlM (fun done s' => s'.Idle ∧ s.Widens s' ∧
    ∀ v, s'.trail.Knows v ↔ (∃ l ∈ done, l.var = v) ∨ s.trail.Knows v) ls ?_ ?_
  · exact ⟨h, .refl s, fun v => by simp⟩
  · intro done l hl s₁ ⟨idle, widens, knows⟩
    refine (register_yields idle (hv l hl)).mono fun s₂ ⟨idle₂, widens₂, knows₂⟩ =>
      ⟨idle₂, widens.trans widens₂, fun v => ?_⟩
    rw [knows₂, knows, ← or_assoc, eq_comm]
    refine or_congr_left ?_
    simp only [List.mem_append, List.mem_singleton, or_and_right, exists_or, exists_eq_left]
    exact or_comm

theorem lt_of_registerAll {ls : List Lit} (e : s.registerAll ls = .ok s') :
    ∀ l ∈ ls, l.var < Lit.varBound := by
  induction ls generalizing s with
  | nil => simp
  | cons l ls ih =>
    rw [registerAll, List.foldlM_cons] at e
    cases hr : s.register l.var with
    | error f => simp [hr, bind, Except.bind] at e
    | ok s₁ =>
      rw [hr] at e
      intro k hk
      rcases List.mem_cons.1 hk with rfl | hk
      · exact lt_of_register hr
      · exact ih e k hk

/-! ## Clauses -/

/-- What adding the clause `ls` has done to a solver that was not infeasible. -/
def AddedTo (s : Solver) (ls : List Lit) (provenance : Option String) (s' : Solver) :
    Added → Prop
  | .kept r => r = s.clauses.size ∧
      s'.clauses.Rearranges (s.clauses.add (Clause.ofList ls false provenance)).2
  | .infeasible r => r = s.clauses.size ∧ s'.status = .infeasible r ∧
      s'.clauses.Rearranges (s.clauses.add (Clause.ofList ls false provenance)).2
  | .skipped c => c = Clause.ofList ls false provenance ∧ c.isTautology = true ∧
      s'.clauses = s.clauses
  | .refused => False

/-- A given clause is kept and taken into account. -/
theorem keep_yields (h : s.Idle) (feasible : s.status.infeasible? = none) {ls : List Lit}
    {provenance : Option String} (known : ∀ l ∈ ls, s.trail.Knows l.var) :
    Yields (s.keep (Clause.ofList ls false provenance)) fun x => x.2.Idle ∧
      (∀ v, x.2.trail.Knows v ↔ s.trail.Knows v) ∧ s.AddedTo ls provenance x.2 x.1 := by
  obtain ⟨status, p, learned, statistics, skip⟩ := s
  have fresh := Propagation.addKept_yields (h.watchful feasible) h.root
    (c := Clause.ofList ls false provenance) (Clause.nodup_ofList ..)
    fun l hl => known l (Clause.mem_ofList.1 hl)
  refine fresh.bind ?_
  rintro ⟨conflict, p'⟩ ⟨grounded, clauses, ext, next, outcome⟩
  have derived : p'.clauses.Derived :=
    (h.derived.add fun learned => by cases learned).rearranges clauses
  have learned' : ∀ r ∈ learned, ∃ c, p'.clauses.get? r = some c ∧ c.learned = true := by
    intro r hr
    obtain ⟨c, hc, hl⟩ := h.learned r hr
    obtain ⟨c', hc', e⟩ := clauses.clauses r c (ClauseStore.get?_add_of_get? hc _)
    exact ⟨c', hc', e.learned.trans hl⟩
  have bounded : ∀ v, p'.trail.Knows v → v < Lit.varBound := fun v hv =>
    h.bounded v ((ext.knows v).1 hv)
  have root : p'.trail.level = 0 := ext.level.trans h.root
  cases conflict with
  | none =>
    refine .pure ⟨⟨⟨grounded, derived, learned', bounded⟩, root, fun _ => outcome, fun c hc => ?_⟩,
      ext.knows, rfl, clauses⟩
    rw [show status.infeasible? = some c from hc] at feasible
    cases feasible
  | some f =>
    have fail : status.fail f = .ok (.infeasible f) := by
      cases status <;> first | rfl | cases feasible
    dsimp only
    rw [fail]
    refine .ok_bind (.pure ⟨⟨⟨grounded, derived, learned', bounded⟩, root, fun e => ?_,
      fun c hc => ?_⟩, ext.knows, outcome.1, rfl, clauses⟩)
    · cases e
    · cases hc
      exact outcome.2

/-- A clause over variables with literals is added, or it is refused. -/
theorem add_yields (h : s.Idle) (ls : List Lit) (provenance : Option String)
    (hv : s.status.infeasible? = none → ∀ l ∈ ls, l.var < Lit.varBound) :
    Yields (s.add ls provenance) fun x => x.2.Idle ∧
      ((s.status.infeasible?.isSome = true ∧ x = (.refused, s)) ∨
        s.status.infeasible? = none ∧ s.AddedTo ls provenance x.2 x.1 ∧
          ∀ v, x.2.trail.Knows v ↔ (∃ l ∈ ls, l.var = v) ∨ s.trail.Knows v) := by
  unfold add
  split
  · rename_i infeasible
    exact .ok ⟨h, .inl ⟨infeasible, rfl⟩⟩
  · rename_i feasible
    have open' : s.status.infeasible? = none := by simpa using feasible
    have atRoot : s.trail.atRoot = true := by
      rw [Trail.atRoot, beq_iff_eq]
      exact h.root
    rw [if_neg (by simp [atRoot])]
    have same : ∀ l, l ∈ (Clause.ofList ls false provenance).literals ↔ l ∈ ls := fun l =>
      Clause.mem_ofList
    refine (registerAll_yields h (Clause.ofList ls false provenance).literals fun l hl =>
      hv open' l ((same l).1 hl)).bind ?_
    rintro s₁ ⟨idle, ⟨p', rfl, w⟩, knows⟩
    have knows' : ∀ v, p'.trail.Knows v ↔ (∃ l ∈ ls, l.var = v) ∨ s.trail.Knows v := by
      intro v
      refine (knows v).trans (or_congr_left ?_)
      simp only [same]
    split
    · rename_i tautology
      rw [Bool.and_eq_true] at tautology
      exact .pure ⟨idle, .inr ⟨open', ⟨rfl, tautology.2, w.clauses⟩, knows'⟩⟩
    · refine (keep_yields idle open' fun l hl => (knows' _).2 (.inl ⟨l, hl, rfl⟩)).mono ?_
      rintro ⟨a, s₂⟩ ⟨idle₂, knows₂, added⟩
      refine ⟨idle₂, .inr ⟨open', ?_, fun v => (knows₂ v).trans (knows' v)⟩⟩
      have clauses : p'.clauses = s.clauses := w.clauses
      cases a with
      | kept r => exact ⟨added.1.trans (congrArg ClauseStore.size clauses), clauses ▸ added.2⟩
      | infeasible r =>
        exact ⟨added.1.trans (congrArg ClauseStore.size clauses), added.2.1, clauses ▸ added.2.2⟩
      | skipped c => exact ⟨added.1, added.2.1, added.2.2.trans clauses⟩
      | refused => exact added

/-- What adding a clause has done that met no fault. -/
theorem cases_of_add {ls : List Lit} {provenance : Option String} {a : Added}
    (e : s.add ls provenance = .ok (a, s')) :
    (s.status.infeasible?.isSome = true ∧ a = .refused ∧ s' = s) ∨
      s.status.infeasible? = none ∧
        ∃ s₁, s.registerAll (Clause.ofList ls false provenance).literals = .ok s₁ ∧
          if s₁.skipTautologies && (Clause.ofList ls false provenance).isTautology then
            a = .skipped (Clause.ofList ls false provenance) ∧ s' = s₁
          else s₁.keep (Clause.ofList ls false provenance) = .ok (a, s') := by
  unfold add at e
  split at e
  · cases e
    exact .inl ⟨‹_›, rfl, rfl⟩
  · rename_i feasible
    split at e
    · cases e
    · obtain ⟨s₁, registered, e⟩ := Yields.exists_of_bind e
      refine .inr ⟨by simpa using feasible, s₁, registered, ?_⟩
      split
      · rename_i tautology
        rw [if_pos tautology] at e
        cases e
        exact ⟨rfl, rfl⟩
      · rename_i other
        rwa [if_neg other] at e

/-- A clause that is added is over variables with literals. -/
theorem lt_of_add {ls : List Lit} {provenance : Option String} {x : Added × Solver}
    (e : s.add ls provenance = .ok x) (feasible : s.status.infeasible? = none) :
    ∀ l ∈ ls, l.var < Lit.varBound := by
  unfold add at e
  rw [feasible] at e
  split at e
  · rename_i h
    cases h
  · split at e
    · cases e
    · cases hr : s.registerAll (Clause.ofList ls false provenance).literals with
      | error f => simp [hr, bind, Except.bind] at e
      | ok s₁ => exact fun l hl => lt_of_registerAll hr l (Clause.mem_ofList.2 hl)

end ClauseLearning.Solver
