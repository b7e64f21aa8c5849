/-
  Solvers laden with clauses that are always true.

  Model. Two solvers are related when the first one leaves such clauses out and the second one keeps
  them (`Solver.Laden`): the states of propagation are laden, statuses and learned clauses have the
  new names, and what was counted is the same.

  Rule. Everything a search does is alike on such solvers, under the same names. What is read of
  them from outside is the same (`Laden.learnedClauses_eq`).
-/
import ClauseLearning.Solver.Search
import ClauseLearning.Proofs.Ballast.Conflicts
import ClauseLearning.Proofs.Ballast.Kept
import ClauseLearning.Proofs.Ballast.Refutation
import ClauseLearning.Proofs.Solver.Sound

namespace ClauseLearning

variable {f : ClauseRef → ClauseRef}

/-- The status with a new name for its clause. -/
def Status.rename (f : ClauseRef → ClauseRef) : Status → Status
  | .conflicting c => .conflicting (f c)
  | .infeasible c => .infeasible (f c)
  | st => st

namespace Status

theorem infeasible?_rename (st : Status) : (st.rename f).infeasible? = st.infeasible?.map f := by
  cases st <;> rfl

theorem start_alike (st : Status) :
    Alike (fun u u' => u' = u.rename f) st.start (st.rename f).start := by
  cases st <;> rfl

theorem meet_alike (st : Status) (c : ClauseRef) :
    Alike (fun u u' => u' = u.rename f) (st.meet c) ((st.rename f).meet (f c)) := by
  cases st <;> rfl

theorem fail_alike (st : Status) (c : ClauseRef) :
    Alike (fun u u' => u' = u.rename f) (st.fail c) ((st.rename f).fail (f c)) := by
  cases st <;> rfl

theorem finish_alike (st : Status) :
    Alike (fun u u' => u' = u.rename f) st.finish (st.rename f).finish := by
  cases st <;> rfl

theorem stop_alike (st : Status) :
    Alike (fun u u' => u' = u.rename f) st.stop (st.rename f).stop := by
  cases st <;> rfl

theorem eq_infeasible_of_fail {st u : Status} {c : ClauseRef} (e : st.fail c = .ok u) :
    u = .infeasible c := by
  cases st <;> cases e <;> rfl

end Status

namespace Solver

/-- A solver between searches, with no conflict left open. -/
structure Resting (s : Solver) : Prop extends Idle s where
  /-- The status is not that of a conflict. -/
  settled : ∀ c, s.status ≠ .conflicting c

theorem resting_new (skip : Bool) : (new skip).Resting := ⟨idle_new skip, fun c => by simp [new]⟩

namespace Resting

variable {s s' : Solver}

theorem register (h : s.Resting) {v : Var} (e : s.register v = .ok s') : s'.Resting := by
  obtain ⟨idle, ⟨p, rfl, -⟩, -⟩ := (register_yields h.toIdle (lt_of_register e)).of_ok e
  exact ⟨idle, h.settled⟩

theorem registerAll (h : s.Resting) {ls : List Lit} (e : s.registerAll ls = .ok s') :
    s'.Resting ∧ s'.status = s.status := by
  obtain ⟨idle, ⟨p, rfl, -⟩, -⟩ := (registerAll_yields h.toIdle ls (lt_of_registerAll e)).of_ok e
  exact ⟨⟨idle, h.settled⟩, rfl⟩

theorem settled_of_keep (h : s.Resting) {c : Clause} {x : Added × Solver} (e : s.keep c = .ok x)
    (d : ClauseRef) : x.2.status ≠ .conflicting d := by
  have settled := h.settled d
  obtain ⟨status, p, learned, statistics, skip⟩ := s
  obtain ⟨⟨conflict, q⟩, -, e⟩ := Yields.exists_of_bind e
  cases conflict with
  | none =>
    cases e
    exact settled
  | some f =>
    obtain ⟨u, fails, e⟩ := Yields.exists_of_bind e
    cases e
    cases Status.eq_infeasible_of_fail fails
    simp

theorem add (h : s.Resting) {ls : List Lit} {provenance : Option String} {x : Added × Solver}
    (e : s.add ls provenance = .ok x) : x.2.Resting := by
  refine ⟨((add_yields h.toIdle ls provenance (lt_of_add e)).of_ok e).1, ?_⟩
  obtain ⟨a, s'⟩ := x
  rcases cases_of_add e with ⟨-, -, rfl⟩ | ⟨-, s₁, registered, e⟩
  · exact h.settled
  · have rests := (h.registerAll registered).1
    split at e
    · obtain ⟨-, rfl⟩ := e
      exact rests.settled
    · exact rests.settled_of_keep e

end Resting

/-- The second solver is the first one laden with clauses that are always true; the first one has
    left them out. -/
inductive Laden (f : ClauseRef → ClauseRef) : Solver → Solver → Prop
  /-- The parts are related. -/
  | intro {p p' : Propagation} (h : p.Laden f p') (status : Status) (learned : Array ClauseRef)
    (statistics : Statistics) :
    Laden f ⟨status, p, learned, statistics, true⟩
      ⟨status.rename f, p', learned.map f, statistics, false⟩

namespace Laden

variable {s s' : Solver}

theorem of_eq {p p' : Propagation} (h : p.Laden f p') {status status' : Status}
    (est : status' = status.rename f) {learned learned' : Array ClauseRef}
    (elr : learned' = learned.map f) (statistics : Statistics) :
    Laden f ⟨status, p, learned, statistics, true⟩ ⟨status', p', learned', statistics, false⟩ := by
  subst est elr
  exact .intro h _ _ _

theorem new : (new true).Laden id (new false) :=
  .of_eq Propagation.laden_empty rfl Array.map_empty.symm .zero

/-! ## What is read -/

theorem propagation (h : s.Laden f s') : s.propagation.Laden f s'.propagation := by
  cases h
  assumption

theorem trail (h : s.Laden f s') : s.trail.Renamed f s'.trail := h.propagation.trail

theorem status_eq (h : s.Laden f s') : s'.status = s.status.rename f := by
  cases h
  rfl

theorem infeasible?_eq (h : s.Laden f s') :
    s'.status.infeasible? = s.status.infeasible?.map f := by
  rw [h.status_eq, Status.infeasible?_rename]

theorem statistics_eq (h : s.Laden f s') : s'.statistics = s.statistics := by
  cases h
  rfl

theorem learned_eq (h : s.Laden f s') : s'.learned = s.learned.map f := by
  cases h
  rfl

theorem assignment_eq (h : s.Laden f s') : s'.assignment = s.assignment := h.trail.assignment

theorem level_eq (h : s.Laden f s') : s'.level = s.level := h.trail.level_eq

theorem atRoot_eq (h : s.Laden f s') : s'.trail.atRoot = s.trail.atRoot :=
  congrArg (· == 0) h.level_eq

theorem isComplete_eq (h : s.Laden f s') : s'.isComplete = s.isComplete := by
  rw [Solver.isComplete, Solver.isComplete, h.assignment_eq]

theorem learnedClauses_eq (h : s.Laden f s') : s'.learnedClauses = s.learnedClauses := by
  rw [learnedClauses, learnedClauses, h.learned_eq, Array.toList_map, List.filterMap_map]
  refine congrArg (List.filterMap · s.learned.toList) (funext fun r => ?_)
  have same : s'.clauses.get? (f r) = (s.clauses.get? r).map (Clause.rename f) :=
    h.propagation.clauses.clause r
  rw [Function.comp_apply, same]
  cases s.clauses.get? r <;> rfl

/-! ## What is done -/

theorem withStatus (h : s.Laden f s') (status : Status) :
    Laden f { s with status := status } { s' with status := status.rename f } := by
  cases h with
  | intro h => exact .intro h _ _ _

theorem withStatistics (h : s.Laden f s') (statistics : Statistics) :
    Laden f { s with statistics := statistics } { s' with statistics := statistics } := by
  cases h with
  | intro h => exact .intro h _ _ _

theorem register (h : s.Laden f s') (v : Var) :
    Alike (Laden f) (s.register v) (s'.register v) := by
  obtain ⟨h, status, learned, statistics⟩ := h
  unfold Solver.register
  dsimp only
  split
  · rfl
  · exact (h.register v).bind fun _ _ h => .intro h _ _ _

theorem registerAll (h : s.Laden f s') (ls : List Lit) :
    Alike (Laden f) (s.registerAll ls) (s'.registerAll ls) :=
  Alike.foldlM (fun _ _ l _ h => h.register l.var) h

/-- A given clause is kept on both sides. -/
theorem keep (h : s.Laden f s') (ls : List Lit) (provenance : Option String) :
    Alike (fun x x' => x'.1.error? = x.1.error? ∧ x.2.Laden f x'.2)
      (s.keep (Clause.ofList ls false provenance))
      (s'.keep (Clause.ofList ls false provenance)) := by
  obtain ⟨h, status, learned, statistics⟩ := h
  rename_i p p'
  obtain ⟨name, kept⟩ := h.keep (Clause.ofList ls false provenance)
  have added := kept.addKept (p.keep (Clause.ofList ls false provenance)).1
  rw [← name] at added
  refine added.bind fun (conflict, q) (conflict', q') ⟨e, h⟩ => ?_
  obtain rfl : conflict' = conflict.map f := e
  cases conflict with
  | none => exact ⟨rfl, .intro h _ _ _⟩
  | some c =>
    refine (status.fail_alike c).bind fun u u' e => ?_
    exact e ▸ ⟨rfl, .intro h _ _ _⟩

theorem cancelUntil (h : s.Laden f s') (k : Nat) :
    Alike (Laden f) (s.cancelUntil k) (s'.cancelUntil k) := by
  obtain ⟨h, status, learned, statistics⟩ := h
  exact (h.cancelUntil k).bind fun _ _ h => .intro h _ _ _

theorem leave (h : s.Laden f s') (status : Status) :
    Alike (Laden f) (s.leave status) (s'.leave (status.rename f)) :=
  (h.withStatus status).cancelUntil 0

theorem noteConsumed (h : s.Laden f s') (consumed : Bool) :
    (s.noteConsumed consumed).Laden f (s'.noteConsumed consumed) := by
  obtain ⟨h, status, learned, statistics⟩ := h
  cases consumed
  · exact .intro h _ _ _
  · exact .intro (h.withTrail h.trail.consume) _ _ _

theorem decideOn (h : s.Laden f s') (v : Var) (polarity : Bool) :
    Alike (Laden f) (s.decideOn v polarity) (s'.decideOn v polarity) := by
  have assume : ∀ l, Alike (Laden f) (s.assume l) (s'.assume l) := by
    intro l
    obtain ⟨h, status, learned, statistics⟩ := h
    simp only [Solver.assume, h.trail.isOpen_eq]
    split
    · rfl
    · refine (h.trail.openLevel.enqueue l none).bind fun (_, t) (_, t') ⟨_, trail⟩ => ?_
      exact .intro (h.withTrail trail) _ _ _
  unfold Solver.decideOn
  split
  · rfl
  · refine (assume _).bind fun s s' h => ?_
    rw [h.statistics_eq]
    exact h.withStatistics _

theorem propagate (h : s.Laden f s')
    (watchful : s'.propagation.Watchful none s'.propagation.next) :
    Alike (Laden f) s.propagate s'.propagate := by
  unfold Solver.propagate
  rw [h.trail.length_eq]
  obtain ⟨h, status, learned, statistics⟩ := h
  refine (h.propagate watchful).bind fun (c, p) (c', p') ⟨e, h⟩ => ?_
  obtain rfl : c' = c.map f := e
  dsimp only
  rw [h.trail.length_eq]
  refine Alike.bind_same fun grown => ?_
  cases c with
  | none => exact .intro h _ _ _
  | some c =>
    refine (status.meet_alike c).bind fun u u' e => ?_
    exact e ▸ .intro h _ _ _

/-! ## Adding -/

theorem skips (h : s.Laden f s') : s.skipTautologies = true := by
  cases h
  rfl

theorem keeps (h : s.Laden f s') : s'.skipTautologies = false := by
  cases h
  rfl

/-- A clause that is always true is kept on the second side only. -/
theorem ballast (h : s.Laden f s') (rests : s.Resting) (idle' : s'.Idle)
    (feasible : s.status.infeasible? = none)
    {ls : List Lit} {provenance : Option String} (known : ∀ l ∈ ls, s'.trail.Knows l.var)
    (tautology : (Clause.ofList ls false provenance).isTautology = true) :
    Yields (s'.keep (Clause.ofList ls false provenance)) fun x =>
      x.1.error? = none ∧ s.Laden (ClauseRef.skipping s.clauses.size f) x.2 := by
  have feasible' : s'.status.infeasible? = none := by
    rw [h.infeasible?_eq, feasible]
    rfl
  have added := h.propagation.ballast (rests.watchful feasible) rests.derived
    (idle'.watchful feasible') (Clause.nodup_ofList ls false provenance)
    (fun l hl => known l (Clause.mem_ofList.1 hl)) (Clause.exists_of_isTautology tautology)
  -- the names that are in use already are the same
  have status' : s.status.rename (ClauseRef.skipping s.clauses.size f) = s.status.rename f := by
    cases e : s.status with
    | conflicting c => exact absurd e (rests.settled c)
    | infeasible c =>
      rw [e] at feasible
      cases feasible
    | _ => rfl
  have learned' : s.learned.map (ClauseRef.skipping s.clauses.size f) = s.learned.map f := by
    refine Array.map_congr_left fun r hr => ?_
    obtain ⟨c, hc, -⟩ := rests.learned r hr
    exact if_pos (ClauseStore.lt_size_of_get? hc)
  obtain ⟨h, status, learned, statistics⟩ := h
  refine added.bind fun (conflict, q) ⟨e, laden⟩ => ?_
  obtain rfl : conflict = none := e
  exact .pure ⟨rfl, .of_eq laden status'.symm learned'.symm statistics⟩

/-- A clause is added. When it is always true, the names of the clauses to come change. -/
theorem add (h : s.Laden f s') (rests : s.Resting) (idle' : s'.Idle) (ls : List Lit)
    (provenance : Option String) :
    Alike (fun x x' => x'.1.error? = x.1.error? ∧ ∃ g, x.2.Laden g x'.2) (s.add ls provenance)
      (s'.add ls provenance) := by
  unfold Solver.add
  rw [h.infeasible?_eq, Option.isSome_map, h.atRoot_eq]
  split
  · exact ⟨rfl, f, h⟩
  · rename_i feasible
    have feasible : s.status.infeasible? = none := by simpa using feasible
    split
    · rfl
    · refine (h.registerAll _).and_eq.bind fun s₁ s₁' ⟨h₁, e, e'⟩ => ?_
      obtain ⟨rests₁, same⟩ := rests.registerAll e
      obtain ⟨idle₁', -, knows⟩ := (registerAll_yields idle' _ (lt_of_registerAll e')).of_ok e'
      rw [h₁.skips, h₁.keeps]
      by_cases tautology : (Clause.ofList ls false provenance).isTautology = true
      · rw [if_pos (by simpa using tautology), if_neg (by simp)]
        refine Alike.of_yields ((h₁.ballast rests₁ idle₁' (same ▸ feasible)
          (fun l hl => ?_) tautology).mono fun x ⟨added, laden⟩ => ⟨added, _, laden⟩)
        exact (knows _).2 (.inl ⟨l, Clause.mem_ofList.2 hl, rfl⟩)
      · rw [if_neg (by simpa using tautology), if_neg (by simp)]
        exact (h₁.keep ls provenance).mono fun x x' ⟨added, laden⟩ => ⟨added, f, laden⟩

/-! ## Learning and refuting -/

theorem record (h : s.Laden f s') (d : Learned) :
    Alike (Laden f) (s.record d) (s'.record (d.rename f)) := by
  obtain ⟨h, status, learned, statistics⟩ := h
  rename_i p p'
  have order : watchOrder p'.trail (d.rename f) = watchOrder p.trail d := by
    rw [watchOrder, h.trail.levelOf_eq]
    rfl
  have clause : ∀ ls, Clause.learnedFrom ls (d.rename f).antecedents =
      (Clause.learnedFrom ls d.antecedents).rename f := fun _ => rfl
  simp only [Solver.record, order, clause, h.trail.hasLevel_eq]
  change Alike _ (if (!d.others.all fun l => p.trail.hasLevel l.var) = true then _ else _)
    (if (!d.others.all fun l => p.trail.hasLevel l.var) = true then _ else _)
  split
  · rfl
  · refine (h.learn _).bind ?_
    rintro ⟨r, q⟩ ⟨_, q'⟩ ⟨rfl, h⟩
    refine (h.enqueue d.asserting (some r)).bind ?_
    rintro ⟨agrees, q⟩ ⟨_, q'⟩ ⟨rfl, h⟩
    cases agrees with
    | true => exact .of_eq h rfl (Array.map_push ..).symm statistics
    | false => rfl

theorem resolveConflict (h : s.Laden f s') (c : ClauseRef) :
    Alike (Laden f) (s.resolveConflict c) (s'.resolveConflict (f c)) := by
  refine (h.propagation.firstUip c).bind fun d d' e => ?_
  obtain rfl := e
  rw [h.statistics_eq, h.level_eq]
  refine Alike.bind_same fun statistics => ?_
  exact (h.cancelUntil d.backjump).bind fun _ _ h => (h.withStatistics statistics).record d

theorem rootClause? (h : s.Laden f s') (c : ClauseRef) :
    Alike (fun d d' => d' = d.map (Clause.rename f)) (s.rootClause? c) (s'.rootClause? (f c)) := by
  refine (h.propagation.clauses.read c).bind fun d d' e => ?_
  obtain ⟨-, rfl⟩ := e
  change Alike _ (if d.isEmpty = true then _ else _) (if d.isEmpty = true then _ else _)
  split
  · rfl
  · refine (h.propagation.firstUip c).bind fun d d' e => ?_
    obtain rfl := e
    rfl

theorem refute (h : s.Laden f s') (c : ClauseRef) :
    Alike (Refutation.Laden f) (s.refute c) (s'.refute (f c)) := by
  unfold Solver.refute
  rw [h.atRoot_eq, h.trail.literals_eq]
  split
  · rfl
  · refine (h.rootClause? c).bind fun d d' e => ?_
    obtain rfl := e
    have implied : Alike (fun is is' => is' = is.map fun x => (x.1, x.2.map f))
        (s.trail.literals.mapM fun l => do return (l, (← s.trail.causeOf l.var).reason))
        ((s.trail.literals.map id).mapM fun l => do
          return (l, (← s'.trail.causeOf l.var).reason)) := by
      refine Alike.mapM fun l hl => (h.trail.causeOf l.var).bind fun c c' hc => ?_
      exact congrArg (Prod.mk l) (hc.2 l hl rfl)
    rw [List.map_id] at implied
    refine implied.bind fun is is' e => ?_
    obtain rfl := e
    exact Refutation.new_alike h.propagation.clauses is c d

end Laden

end Solver

/-- The answers are the same but for the names of the clauses of a refutation. -/
inductive Verdict.Laden (f : ClauseRef → ClauseRef) : Verdict → Verdict → Prop
  /-- The same solution. -/
  | satisfiable (sol : Solution) : Laden f (.satisfiable sol) (.satisfiable sol)
  /-- No solution, for the same reasons. -/
  | unsatisfiable {w w' : Refutation} (h : w.Laden f w') :
    Laden f (.unsatisfiable w) (.unsatisfiable w')
  /-- No answer. -/
  | unknown : Laden f .unknown .unknown

namespace Solver.Laden

variable {s s' : Solver}

theorem onConflict (h : s.Laden f s') (c : ClauseRef) :
    Alike (fun x x' => Option.Rel (Verdict.Laden f) x.1 x'.1 ∧ x.2.Laden f x'.2)
      (s.onConflict c) (s'.onConflict (f c)) := by
  unfold Solver.onConflict
  rw [h.atRoot_eq, h.status_eq]
  split
  · refine (s.status.fail_alike c).bind fun u u' e => ?_
    obtain rfl := e
    exact ((h.withStatus u).refute c).bind fun w w' hw =>
      ⟨.some (.unsatisfiable hw), h.withStatus u⟩
  · refine (h.resolveConflict c).bind fun s s' h => ?_
    rw [h.status_eq]
    refine s.status.start_alike.bind fun u u' e => ?_
    obtain rfl := e
    exact ⟨.none, h.withStatus u⟩

theorem succeed (h : s.Laden f s') :
    Alike (fun x x' => x.1.Laden f x'.1 ∧ x.2.Laden f x'.2) s.succeed s'.succeed := by
  unfold Solver.succeed
  rw [h.status_eq, h.assignment_eq]
  refine s.status.finish_alike.bind fun u u' e => ?_
  obtain rfl := e
  exact (h.leave u).bind fun _ _ left => ⟨.satisfiable _, left⟩

end Solver.Laden

end ClauseLearning
