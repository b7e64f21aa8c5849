/-
  The states in which a solver propagates.

  Model. Only searches propagate: in every round, once the termination condition has let the search
  go on. The state is then one that some calls and some rounds of a further search have led to
  (`Propagates`).

  Rule. `propagate_closes`: in each of these states propagation ends and is closing under the unit
  rule, whatever the searches before it have left on the watch lists. `check_of_propagate`: what
  the check of the watches finds afterwards is nothing or a stale watch, and `check_fails` shows
  that a search can come to one.
-/
import ClauseLearning.Policy.Scripted
import ClauseLearning.Proofs.Propagation.Checked
import ClauseLearning.Proofs.Propagation.Closure
import ClauseLearning.Proofs.Solver.Answers

namespace ClauseLearning

open Round (Steps)

/-- The state of propagation in a round of a search after the calls `h`, as soon as the condition
    has let the search go on. -/
inductive Propagates (skip : Bool) (h : List Event) : Propagation → Prop
  /-- Some rounds of a search lead to the round. -/
  | round {s : Solver} {π β : Type} [Policy π] [Termination β] {budget : β} {policy : π} {n : Nat}
    {q : Search π β} (run : Reached skip h s) (feasible : s.status.infeasible? = none)
    (steps : Steps Search.round n (Search.begun s budget policy) q)
    (goesOn : (Termination.poll q.budget).1 = false) : Propagates skip h q.solver.propagation

namespace Propagates

variable {skip : Bool} {h : List Event} {s : Solver} {p : Propagation}

/-- The watch lists are right up to the queue. -/
theorem watchful (at' : Propagates skip h p) : p.Watchful none p.next := by
  obtain ⟨run, feasible, steps, -⟩ := at'
  exact (Search.searching_of_steps (run.idle.searching feasible) steps).1.watchful

/-- What is computed of the state after `2 ^ k` rounds of a search without a bound, where the
    solver that searches comes from a computation that leads to such. -/
theorem exists_of_rounds {π γ : Type} [Policy π] {policy : π} {k : Nat} {f : Propagation → γ}
    {c : γ} {x : Except Fault Solver} (reached : ∀ s, x = .ok s → ∃ h, Reached skip h s)
    (e : (x >>= fun s =>
      (Round.repeatPow Search.round k (Search.begun s Budget.unlimited policy)).map fun r =>
        (s.status.infeasible?, r.state?.map fun q => (q.budget.isSpent, f q.solver.propagation))) =
      .ok (none, some (false, c))) :
    ∃ h p, Propagates skip h p ∧ f p = c := by
  cases hx : x with
  | error f =>
    rw [hx] at e
    cases e
  | ok s =>
    rw [hx] at e
    obtain ⟨h, run⟩ := reached s hx
    obtain ⟨r, outcome, e⟩ := Yields.of_map e
    rw [Prod.mk.injEq, Option.map_eq_some_iff] at e
    obtain ⟨feasible, q, more, e⟩ := e
    rw [Prod.mk.injEq] at e
    obtain ⟨goesOn, e⟩ := e
    exact ⟨h, _, .round run feasible (Round.steps_of_state outcome more) goesOn, e⟩

end Propagates

variable {skip : Bool} {h : List Event} {p : Propagation}

/-- Whenever a search propagates, it makes exactly those literals true that the unit rule gives
    from the literals of the trail, or it finds a clause that these falsify. -/
theorem propagate_closes (at' : Propagates skip h p) :
    ∃ conflict p', p.propagate = .ok (conflict, p') ∧ p.Closes conflict p' := by
  obtain ⟨⟨conflict, p'⟩, e, closes⟩ := at'.watchful.closes
  exact ⟨conflict, p', e, closes⟩

theorem propagate_closes_two_rules : ∃ h p, Propagates true h p ∧
    p.trail.literals = [⟨1, true⟩] ∧
    ∃ conflict p', p.propagate = .ok (conflict, p') ∧ p.Closes conflict p' := by
  have rounds : ((Solver.new true).addAll [([⟨1, false⟩, ⟨2, true⟩], none),
      ([⟨2, false⟩, ⟨1, false⟩, ⟨3, true⟩], none)] >>= fun s =>
        (Round.repeatPow Search.round 0
          (Search.begun s Budget.unlimited LowestFirst.mk)).map fun r =>
            (s.status.infeasible?, r.state?.map fun q =>
              (q.budget.isSpent, q.solver.propagation.trail.literals))) =
          .ok (none, some (false, [⟨1, true⟩])) := by
    cbv
  obtain ⟨h, p, at', decided⟩ := Propagates.exists_of_rounds (f := fun p => p.trail.literals)
    (fun s load => (Reached.of_new load).imp fun _ run => run.1) rounds
  exact ⟨h, p, at', decided, propagate_closes at'⟩

/-- What propagation comes to, where the check afterwards is known. -/
theorem Propagation.exists_of_checked {conflict : Option ClauseRef} {x : Except Fault Unit}
    (e : p.propagate.map (fun y => (y.1, y.2.check)) = .ok (conflict, x)) :
    ∃ p', p.propagate = .ok (conflict, p') ∧ p'.check = x := by
  obtain ⟨⟨conflict', p'⟩, propagated, checked⟩ := Yields.of_map e
  rw [Prod.mk.injEq] at checked
  obtain ⟨same, checked⟩ := checked
  obtain rfl : conflict' = conflict := same
  exact ⟨p', propagated, checked⟩

/-- After a propagation without a conflict every watched literal has one watcher, and one that is
    false stands in a clause with a literal that has been true since its level or before. The
    check succeeds when this is the other watched literal for all clauses, and otherwise meets a
    clause for which it is not. -/
theorem check_of_propagate {p' : Propagation} (at' : Propagates skip h p)
    (e : p.propagate = .ok (none, p')) :
    (∀ r l, p'.clauses.Watches none r l →
      (p'.watchers (-l)).countP (fun w => w.clause == r) = 1 ∧
        (p'.trail.isFalse l = true → p'.Covers r l)) ∧
    Ends p'.check (fun _ => ∀ r c, p'.clauses.get? r = some c → p'.Stands c.literals)
      p'.Stale := by
  obtain ⟨-, next, outcome⟩ := (Propagation.propagate_yields at'.watchful).of_ok e
  have watchful : p'.Watchful none p'.trail.length := next ▸ outcome
  refine ⟨fun r l watched => ⟨watchful.countP_watchers watched, fun false => ?_⟩,
    watchful.check_ends⟩
  exact watchful.covers watched (watchful.trail.isFalse_iff.1 false)

theorem check_of_propagate_two_rules : ∃ h p p', Propagates true h p ∧
    p.propagate = .ok (none, p') ∧ p'.check = .ok () ∧
    (∀ r l, p'.clauses.Watches none r l →
      (p'.watchers (-l)).countP (fun w => w.clause == r) = 1 ∧
        (p'.trail.isFalse l = true → p'.Covers r l)) ∧
    Ends p'.check (fun _ => ∀ r c, p'.clauses.get? r = some c → p'.Stands c.literals)
      p'.Stale := by
  have rounds : ((Solver.new true).addAll [([⟨1, false⟩, ⟨2, true⟩], none),
      ([⟨2, false⟩, ⟨1, false⟩, ⟨3, true⟩], none)] >>= fun s =>
        (Round.repeatPow Search.round 0
          (Search.begun s Budget.unlimited LowestFirst.mk)).map fun r =>
            (s.status.infeasible?, r.state?.map fun q => (q.budget.isSpent,
              q.solver.propagation.propagate.map fun x => (x.1, x.2.check)))) =
          .ok (none, some (false, .ok (none, .ok ()))) := by
    cbv
  obtain ⟨h, p, at', e⟩ := Propagates.exists_of_rounds
    (f := fun p => p.propagate.map fun x => (x.1, x.2.check))
    (fun s load => (Reached.of_new load).imp fun _ run => run.1) rounds
  obtain ⟨p', e, checked⟩ := Propagation.exists_of_checked e
  exact ⟨h, p, p', at', e, checked, check_of_propagate at' e⟩

/-- While 2 is false, the clause over 1, 2 and 3 comes to be watched through 1 and 3, and 2 stays
    cached in the watcher for 1. A search that then makes 2 true and 1 false does not visit the
    clause, and leaves 1 false next to 3, which has no value. -/
theorem check_fails : ∃ h p p', Propagates true h p ∧ p.propagate = .ok (none, p') ∧
    p'.check = .error (.falseWatch [⟨1, true⟩, ⟨3, true⟩, ⟨2, true⟩] ⟨1, true⟩ ⟨3, true⟩) := by
  have rounds : (((Solver.new true).addAll [([⟨1, true⟩, ⟨2, true⟩, ⟨3, true⟩], none)] >>= fun s =>
      s.solve Budget.unlimited (Scripted.new [-2, 1, 3] false true)).map (·.solver) >>= fun s =>
        (Round.repeatPow Search.round 1
          (Search.begun s Budget.unlimited (Scripted.new [2, -1] false true))).map fun r =>
            (s.status.infeasible?, r.state?.map fun q => (q.budget.isSpent,
              q.solver.propagation.propagate.map fun x => (x.1, x.2.check)))) =
          .ok (none, some (false, .ok (none,
            .error (.falseWatch [⟨1, true⟩, ⟨3, true⟩, ⟨2, true⟩] ⟨1, true⟩ ⟨3, true⟩)))) := by
    cbv
  obtain ⟨h, p, at', e⟩ := Propagates.exists_of_rounds
    (f := fun p => p.propagate.map fun x => (x.1, x.2.check))
    (fun s searched => by
      obtain ⟨h, s, o, run, solved, rfl, -⟩ := Reached.exists_of_map searched
      exact ⟨_, run.solve solved⟩) rounds
  obtain ⟨p', e, checked⟩ := Propagation.exists_of_checked e
  exact ⟨h, p, p', at', e, checked⟩

end ClauseLearning
