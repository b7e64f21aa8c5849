/-
  The watch lists in every moment of a run.

  Model. Between calls a solver rests. In a search it comes from the begin of a round to the end
  of propagation, and from there to a decision, to the level from which it goes on with a learned
  clause, or to an answer (`Moment`). A run logs the clauses as they are created, and the one that
  was false when it was added, if there was such a clause. `Passes` says which solvers a run
  passes through and what it has logged by then; every history and every round of a search is made
  of such moments (`Passes.of_reached`, `Passes.of_round`).

  Rule. `watchLists_exact`: in every moment the watch lists have one watcher for each of the first
  two literals of every clause that is long enough and has not failed, and no others; and a clause
  is what it was created as, but for the order of its literals.
-/
import Mathlib
import ClauseLearning.Policy.Lowest
import ClauseLearning.Proofs.Solver.History
import ClauseLearning.Proofs.Solver.Inversion

namespace ClauseLearning

/-! ## What a store was made of -/

/-- The clauses of a store are the given ones in this order, each with its literals in some
    order. -/
structure ClauseStore.MadeOf (s : ClauseStore) (created : List Clause) : Prop where
  /-- None is missing. -/
  size : s.size = created.length
  /-- Every one is there. -/
  clauses : ∀ r c, s.get? r = some c → ∃ d, created[r]? = some d ∧ c.Rearranges d

namespace ClauseStore.MadeOf

variable {s s' : ClauseStore} {created : List Clause}

theorem empty : ClauseStore.empty.MadeOf [] where
  size := rfl
  clauses r c hc := by simp [ClauseStore.empty, get?] at hc

theorem rearranges (h : s.MadeOf created) (e : s'.Rearranges s) : s'.MadeOf created where
  size := e.size.trans h.size
  clauses r c' hc' := by
    obtain ⟨c, hc, same⟩ := e.origin hc'
    obtain ⟨d, hd, same'⟩ := h.clauses r c hc
    exact ⟨d, hd, same.trans same'⟩

theorem add (h : s.MadeOf created) (c : Clause) : (s.add c).2.MadeOf (created ++ [c]) where
  size := by
    rw [List.length_append, List.length_singleton, ← h.size]
    exact Table.size_push ..
  clauses r d hd := by
    rcases get?_of_add hd with ⟨rfl, rfl⟩ | old
    · exact ⟨d, by rw [h.size, List.getElem?_concat_length], .refl d⟩
    · obtain ⟨d', hd', same⟩ := h.clauses r d old
      exact ⟨d', (List.getElem?_append_left (List.getElem?_eq_some_iff.1 hd').1).trans hd', same⟩

end ClauseStore.MadeOf

/-! ## Runs -/

/-- Where the run of a solver is. -/
inductive Moment where
  /-- It waits for a call. -/
  | resting
  /-- A round of a search begins. -/
  | searching
  /-- The trail was propagated, up to a conflict if there is one. -/
  | propagated
  /-- It has gone back to the level from which to go on with what was learned. -/
  | learning (d : Learned)

/-- What a run has kept. -/
structure Log where
  /-- The clauses as they were created, in the order of their references. -/
  created : List Clause
  /-- The clause that was false when it was added, if there was one. -/
  failed : Option ClauseRef

namespace Log

/-- The log of a new solver. -/
def empty : Log := ⟨[], none⟩

/-- A clause is created. -/
def create (g : Log) (c : Clause) : Log := ⟨g.created ++ [c], g.failed⟩

/-- A clause was added, and this came of it. -/
def add (g : Log) (ls : List Lit) (provenance : Option String) : Added → Log
  | .kept _ => g.create (Clause.ofList ls false provenance)
  | .infeasible r => ⟨(g.create (Clause.ofList ls false provenance)).created, some r⟩
  | .skipped _ => g
  | .refused => g

end Log

/-- A run of a solver passes through the given one, with the log `g`. -/
inductive Passes (skip : Bool) : Log → Moment → Solver → Prop
  /-- It starts without variables and clauses. -/
  | new : Passes skip .empty .resting (.new skip)
  /-- A variable is registered. -/
  | register {g : Log} {s s' : Solver} {v : Var} (before : Passes skip g .resting s)
    (e : s.register v = .ok s') : Passes skip g .resting s'
  /-- A clause is added. -/
  | add {g : Log} {s s' : Solver} {ls : List Lit} {provenance : Option String} {a : Added}
    (before : Passes skip g .resting s) (e : s.add ls provenance = .ok (a, s')) :
    Passes skip (g.add ls provenance a) .resting s'
  /-- A search begins. -/
  | begin {g : Log} {s : Solver} {status : Status} (before : Passes skip g .resting s)
    (e : s.status.start = .ok status) : Passes skip g .searching { s with status := status }
  /-- The trail is propagated. -/
  | propagate {g : Log} {s s' : Solver} (before : Passes skip g .searching s)
    (e : s.propagate = .ok s') : Passes skip g .propagated s'
  /-- An unassigned variable is decided on, after a policy has been asked. -/
  | decide {g : Log} {s s' : Solver} {v : Var} {polarity consumed : Bool}
    (before : Passes skip g .propagated s) (open' : ∀ c, s.status ≠ .conflicting c)
    (unassigned : s.assignment.isUnassigned v = true)
    (e : (s.noteConsumed consumed).decideOn v polarity = .ok s') : Passes skip g .searching s'
  /-- A conflict is analysed, and the solver goes back. -/
  | backjump {g : Log} {s s' : Solver} {c : ClauseRef} {d : Learned} {st : Statistics}
    (before : Passes skip g .propagated s) (conflict : s.status = .conflicting c)
    (above : s.trail.atRoot = false) (analysis : s.propagation.firstUip c = .ok d)
    (counts : Solver.countLearned s.statistics s.level d = .ok st)
    (e : s.cancelUntil d.backjump = .ok s') :
    Passes skip g (.learning d) { s' with statistics := st }
  /-- What was learned is kept, and the search goes on. -/
  | learn {g : Log} {s s' : Solver} {d : Learned} {status : Status}
    (before : Passes skip g (.learning d) s) (e : s.record d = .ok s')
    (starts : s'.status.start = .ok status) :
    Passes skip (g.create (Solver.learnedClause s.trail d)) .searching { s' with status := status }
  /-- A conflict at the root shows that there is no solution. -/
  | refute {g : Log} {s : Solver} {c : ClauseRef} {status : Status}
    (before : Passes skip g .propagated s) (conflict : s.status = .conflicting c)
    (root : s.trail.atRoot = true) (e : s.status.fail c = .ok status) :
    Passes skip g .resting { s with status := status }
  /-- There is a solution. -/
  | succeed {g : Log} {s s' : Solver} {status : Status} (before : Passes skip g .propagated s)
    (open' : ∀ c, s.status ≠ .conflicting c) (complete : s.isComplete = true)
    (e : s.status.finish = .ok status) (left : s.leave status = .ok s') :
    Passes skip g .resting s'
  /-- The search is stopped. -/
  | stop {g : Log} {s s' : Solver} {status : Status} (before : Passes skip g .searching s)
    (e : s.status.stop = .ok status) (left : s.leave status = .ok s') :
    Passes skip g .resting s'

/-! ## What holds in every moment -/

namespace Solver

variable {s s' : Solver} {g : Log} {c : ClauseRef} {d : Learned}

/-- Recording the learned clause is possible, and it follows from its antecedents. -/
structure Learning (s : Solver) (d : Learned) : Prop extends Sound s where
  /-- The clause can be kept. -/
  learnable : s.propagation.Learnable d
  /-- The antecedents were kept before. -/
  kept : ∀ a ∈ d.antecedents, a < s.clauses.size
  /-- It follows from them. -/
  entails : s.clauses.Entails d.antecedents d.literals
  /-- The status names the conflict. -/
  status : ∃ c, s.status = .conflicting c

/-- What holds of the solver in a moment of a run. -/
def Fits (s : Solver) : Moment → Prop
  | .resting => s.Idle
  | .searching => s.Searching
  | .propagated => ∃ s₀ : Solver, s₀.Propagated s
  | .learning d => s.Learning d

/-- The solver has what the log says: the lists index the clauses that have not failed. -/
structure Logged (s : Solver) (g : Log) : Prop where
  /-- A clause has failed only if the solver is infeasible. -/
  failed : ∀ r, g.failed = some r → s.status.infeasible?.isSome = true
  /-- The lists are an index. -/
  indexes : s.clauses.Indexes g.failed s.propagation.watchers
  /-- The clauses are those that were created. -/
  made : s.clauses.MadeOf g.created

namespace Logged

/-- As long as the problem is open no clause has failed. -/
theorem none_failed (h : s.Logged g) (open' : s.status.infeasible? = none) : g.failed = none := by
  cases e : g.failed with
  | none => rfl
  | some r =>
    have := h.failed r e
    rw [open'] at this
    cases this

/-- An operation that creates no clause, on an open problem. -/
theorem step (h : s.Logged g) (open' : s.status.infeasible? = none)
    (indexes : s'.clauses.Indexes none s'.propagation.watchers)
    (clauses : s'.clauses.Rearranges s.clauses) : s'.Logged g := by
  have none := h.none_failed open'
  refine ⟨fun r hr => ?_, none ▸ indexes, h.made.rearranges clauses⟩
  rw [none] at hr
  cases hr

/-- New variables change nothing that is logged. -/
theorem widens (h : s.Logged g) (w : s.Widens s') : s'.Logged g := by
  obtain ⟨p', rfl, w⟩ := w
  have clauses : p'.clauses = s.clauses := w.clauses
  refine ⟨h.failed, ?_, ?_⟩
  · change p'.clauses.Indexes g.failed p'.watchers
    rw [clauses, w.watchers]
    exact h.indexes
  · change p'.clauses.MadeOf g.created
    exact clauses ▸ h.made

end Logged

/-! ## One operation -/

/-- A clause that is kept is logged. -/
theorem keep_logged (idle : s.Idle) (h : s.Logged g) (open' : s.status.infeasible? = none)
    {ls : List Lit} {provenance : Option String} {a : Added}
    (known : ∀ l ∈ ls, s.trail.Knows l.var)
    (e : s.keep (Clause.ofList ls false provenance) = .ok (a, s')) :
    s'.Logged (g.add ls provenance a) := by
  obtain ⟨idle', -, added⟩ := (keep_yields idle open' known).of_ok e
  have made : s'.clauses.Rearranges (s.clauses.add (Clause.ofList ls false provenance)).2 →
      s'.clauses.MadeOf (g.created ++ [Clause.ofList ls false provenance]) :=
    (h.made.add _).rearranges
  have none := h.none_failed open'
  obtain ⟨status, p, learned, statistics, skip⟩ := s
  obtain ⟨⟨conflict, p'⟩, kept, e⟩ := Yields.exists_of_bind e
  cases conflict with
  | none =>
    cases e
    refine ⟨fun r hr => ?_, ?_, made added.2⟩
    · rw [show g.failed = some r from hr] at none
      cases none
    · have watchful := idle'.watchful open'
      change p'.clauses.Indexes g.failed p'.watchers
      exact none ▸ watchful.indexes
  | some f =>
    obtain ⟨status', fails, e⟩ := Yields.exists_of_bind e
    cases e
    obtain ⟨rfl, infeasible, clauses⟩ := added
    refine ⟨fun r _ => ?_, ?_, made clauses⟩
    · rw [infeasible]
      rfl
    · exact Propagation.indexes_of_addKept (idle.watchful open') (Clause.nodup_ofList ..)
        (fun l hl => known l (Clause.mem_ofList.1 hl)) kept

/-- Adding a clause is logged. -/
theorem add_logged (idle : s.Idle) (h : s.Logged g) {ls : List Lit} {provenance : Option String}
    {a : Added} (e : s.add ls provenance = .ok (a, s')) : s'.Logged (g.add ls provenance a) := by
  rcases cases_of_add e with ⟨-, rfl, rfl⟩ | ⟨open', s₁, registered, rest⟩
  · exact h
  · obtain ⟨idle₁, widens, knows⟩ :=
      (registerAll_yields idle _ (lt_of_registerAll registered)).of_ok registered
    have h₁ := h.widens widens
    split at rest
    · obtain ⟨rfl, rfl⟩ := rest
      exact h₁
    · refine keep_logged idle₁ h₁ ?_ (fun l hl => ?_) rest
      · obtain ⟨p', rfl, -⟩ := widens
        exact open'
      · exact (knows _).2 (.inl ⟨l, Clause.mem_ofList.2 hl, rfl⟩)

theorem learned_of_keep {c : Clause} {a : Added} (e : s.keep c = .ok (a, s')) :
    s'.learned = s.learned ∧ s'.statistics = s.statistics := by
  obtain ⟨status, p, learned, statistics, skip⟩ := s
  obtain ⟨⟨conflict, p'⟩, -, e⟩ := Yields.exists_of_bind e
  cases conflict with
  | none =>
    cases e
    exact ⟨rfl, rfl⟩
  | some f =>
    obtain ⟨status', -, e⟩ := Yields.exists_of_bind e
    cases e
    exact ⟨rfl, rfl⟩

/-- Adding a clause learns nothing and counts nothing, and it does not make an infeasible problem
    feasible. -/
theorem learned_of_add {ls : List Lit} {provenance : Option String} {a : Added} (idle : s.Idle)
    (e : s.add ls provenance = .ok (a, s')) :
    s'.learned = s.learned ∧ s'.statistics = s.statistics ∧ s'.clauses.Includes s.clauses ∧
      (s'.status.infeasible? = none → s.status.infeasible? = none) := by
  have includes : s'.clauses.Includes s.clauses := by
    obtain ⟨-, ⟨-, refused⟩ | ⟨-, added, -⟩⟩ :=
      (add_yields idle _ _ fun open' => lt_of_add e open').of_ok e
    · cases refused
      exact .refl _
    · exact added.includes
  rcases cases_of_add e with ⟨-, rfl, rfl⟩ | ⟨open', s₁, registered, rest⟩
  · exact ⟨rfl, rfl, includes, id⟩
  · obtain ⟨-, ⟨p', rfl, -⟩, -⟩ :=
      (registerAll_yields idle _ (lt_of_registerAll registered)).of_ok registered
    split at rest
    · obtain ⟨-, rfl⟩ := rest
      exact ⟨rfl, rfl, includes, id⟩
    · obtain ⟨learned, statistics⟩ := learned_of_keep rest
      exact ⟨learned, statistics, includes, fun _ => open'⟩

/-- After propagation the lists are an index, whether or not there was a conflict. -/
theorem Propagated.indexes (after : s.Propagated s') :
    s'.clauses.Indexes none s'.propagation.watchers := by
  rcases after.outcome with searching | ⟨c, -, -, n, -, watchful⟩
  · exact searching.watchful.indexes
  · exact watchful.indexes

/-- Propagation changes the order of literals only. -/
theorem rearranges_of_propagate (h : s.Searching) (e : s.propagate = .ok s') :
    s'.clauses.Rearranges s.clauses := by
  obtain ⟨status, p, learned, statistics, skip⟩ := s
  obtain ⟨⟨conflict, p'⟩, propagated, e⟩ := Yields.exists_of_bind e
  obtain ⟨on, -⟩ := (Propagation.propagate_yields h.watchful).of_ok propagated
  obtain ⟨grown, -, e⟩ := Yields.exists_of_bind e
  cases conflict with
  | none =>
    cases e
    exact on.clauses
  | some c =>
    obtain ⟨status', -, e⟩ := Yields.exists_of_bind e
    cases e
    exact on.clauses

/-- A decision leaves the clauses. -/
theorem clauses_of_decideOn {v : Var} {polarity : Bool} (e : s.decideOn v polarity = .ok s') :
    s'.clauses = s.clauses := by
  obtain ⟨p, same, rfl⟩ := exists_of_decideOn e
  exact same

theorem clauses_noteConsumed (s : Solver) (consumed : Bool) :
    (s.noteConsumed consumed).clauses = s.clauses := rfl

/-- A conflict above the root leads back to where a clause can be learned from it. -/
theorem Propagated.learning {s'' : Solver} (after : s.Propagated s') (st : Statistics)
    (conflict : s'.status = .conflicting c) (above : s'.trail.atRoot = false)
    (analysis : s'.propagation.firstUip c = .ok d) (e : s'.cancelUntil d.backjump = .ok s'') :
    Learning { s'' with statistics := st } d ∧ s''.clauses = s'.clauses := by
  obtain ⟨-, n, current, watchful⟩ := after.conflicts conflict
  have asserts := after.asserts conflict analysis
  have pos := level_pos above
  have low : d.backjump < s'.level := asserts.backjump_lt pos
  have start : s'.trail.startOf d.backjump ≤ n := current _ (Trail.Decided.startOf_mem low)
  obtain ⟨p', rfl, sound, watchful', back, clauses, -⟩ :=
    (cancelUntil_yields after.sound watchful (Nat.le_of_lt low)
      (Nat.le_trans (Nat.min_le_right ..) start)).of_ok e
  refine ⟨⟨⟨sound.grounded, sound.derived, sound.learned, sound.bounded⟩,
    asserts.learnable after.sound.grounded pos back watchful', ?_, ?_, c, conflict⟩, clauses⟩
  · change ∀ a ∈ d.antecedents, a < p'.clauses.size
    exact clauses ▸ asserts.kept
  · change p'.clauses.Entails d.antecedents d.literals
    exact clauses ▸ asserts.entails

end Solver

/-! ## Every moment -/

section Moments

variable {skip : Bool} {g : Log} {m : Moment} {s : Solver}

open Solver

/-- In every moment of a run the solver is fit for it and has what was logged. -/
theorem Passes.fits_logged (run : Passes skip g m s) : s.Fits m ∧ s.Logged g := by
  induction run with
  | new => exact ⟨idle_new skip, nofun, Propagation.watchful_empty.indexes, .empty⟩
  | register _ e ih =>
    obtain ⟨idle, logged⟩ := ih
    obtain ⟨idle', widens, -⟩ := (register_yields idle (lt_of_register e)).of_ok e
    exact ⟨idle', logged.widens widens⟩
  | add _ e ih =>
    obtain ⟨idle, logged⟩ := ih
    obtain ⟨idle', -⟩ := (add_yields idle _ _ fun open' => lt_of_add e open').of_ok e
    exact ⟨idle', add_logged idle logged e⟩
  | @begin g s status _ e ih =>
    obtain ⟨idle, logged⟩ := ih
    have open' : s.status.infeasible? = none ∧ status = .searching := by
      cases hs : s.status <;> rw [hs] at e <;> cases e <;> exact ⟨rfl, rfl⟩
    obtain ⟨open', rfl⟩ := open'
    have searching := idle.searching open'
    exact ⟨searching, logged.step open' searching.watchful.indexes (.refl _)⟩
  | @propagate g s s' _ e ih =>
    obtain ⟨searching, logged⟩ := ih
    have after : s.Propagated s' := (propagate_yields searching).of_ok e
    exact ⟨⟨s, after⟩, logged.step (by rw [searching.status]; rfl) after.indexes
      (rearranges_of_propagate searching e)⟩
  | @decide g s s' v polarity consumed _ open' unassigned e ih =>
    obtain ⟨⟨s₀, after⟩, logged⟩ := ih
    have searching := after.searching open'
    obtain ⟨searching', -⟩ :=
      (decideOn_noteConsumed_yields searching after.done unassigned _ _).of_ok e
    have clauses := (clauses_of_decideOn e).trans (s.clauses_noteConsumed consumed)
    exact ⟨searching', logged.step (by rw [searching.status]; rfl) searching'.watchful.indexes
      (clauses ▸ .refl _)⟩
  | @backjump g s s' c d st _ conflict above analysis counts e ih =>
    obtain ⟨⟨s₀, after⟩, logged⟩ := ih
    obtain ⟨learning, clauses⟩ := after.learning st conflict above analysis e
    have rearranges : s'.clauses.Rearranges s.clauses := clauses ▸ .refl _
    exact ⟨learning, logged.step (by rw [conflict]; rfl) learning.learnable.watchful.indexes
      rearranges⟩
  | @learn g s s' d status _ e starts ih =>
    obtain ⟨learning, logged⟩ := ih
    obtain ⟨c, conflict⟩ := learning.status
    obtain ⟨sound, -, same, recorded⟩ :=
      (record_sound learning.toSound learning.learnable learning.kept learning.entails).of_ok e
    rw [same, conflict] at starts
    cases starts
    have none := logged.none_failed (by rw [conflict]; rfl)
    refine ⟨⟨⟨sound.grounded, sound.derived, sound.learned, sound.bounded⟩, recorded.watchful,
      rfl⟩, fun r hr => ?_, ?_, ?_⟩
    · rw [show g.failed = some r from hr] at none
      cases none
    · change s'.clauses.Indexes g.failed s'.propagation.watchers
      exact none ▸ recorded.watchful.indexes
    · have clauses : s'.clauses = (s.clauses.add (learnedClause s.trail d)).2 := recorded.clauses
      change s'.clauses.MadeOf (g.created ++ [learnedClause s.trail d])
      exact clauses ▸ logged.made.add _
  | @refute g s c status _ conflict root e ih =>
    obtain ⟨⟨s₀, after⟩, logged⟩ := ih
    rw [conflict] at e
    cases e
    have open' : s.status.infeasible? = none := by rw [conflict]; rfl
    refine ⟨⟨⟨after.sound.grounded, after.sound.derived, after.sound.learned,
      after.sound.bounded⟩, ?_, nofun, fun c' hc' => ?_⟩,
      logged.step open' after.indexes (.refl _)⟩
    · rw [Trail.atRoot, beq_iff_eq] at root
      exact root
    · cases hc'
      exact (after.conflicts conflict).1.falsifies
  | @succeed g s s' status _ open' complete e left ih =>
    obtain ⟨⟨s₀, after⟩, logged⟩ := ih
    have searching := after.searching open'
    rw [searching.status] at e
    cases e
    obtain ⟨idle, -, clauses, same⟩ :=
      (leave_yields searching.toSound searching.watchful .solved rfl).of_ok left
    have watchful := idle.watchful (by rw [same]; rfl)
    exact ⟨idle, logged.step (by rw [searching.status]; rfl) watchful.indexes (clauses ▸ .refl _)⟩
  | @stop g s s' status _ e left ih =>
    obtain ⟨searching, logged⟩ := ih
    rw [searching.status] at e
    cases e
    obtain ⟨idle, -, clauses, same⟩ :=
      (leave_yields searching.toSound searching.watchful .stopped rfl).of_ok left
    have watchful := idle.watchful (by rw [same]; rfl)
    exact ⟨idle, logged.step (by rw [searching.status]; rfl) watchful.indexes (clauses ▸ .refl _)⟩

/-! ## Histories and searches are made of moments -/

variable {π β : Type} [Policy π] [Termination β] {q q' : Search π β} {n : Nat}

/-- A round leads from one moment to another. -/
theorem Passes.of_round {r : Round (Search π β) (Outcome π)}
    (run : Passes skip g .searching q.solver) (e : q.round = .ok r) :
    ∃ g', match r with
      | .more q' => Passes skip g' .searching q'.solver
      | .done o => Passes skip g' .resting o.solver := by
  have made := Search.cases_of_round e
  cases r with
  | more q' =>
    cases made with
    | learns _ propagated conflict above resolved starts =>
      obtain ⟨d, analysis, resolved⟩ := Yields.exists_of_bind resolved
      obtain ⟨st, counts, resolved⟩ := Yields.exists_of_bind resolved
      obtain ⟨s₁, back, recorded⟩ := Yields.exists_of_bind resolved
      have back' := (run.propagate propagated).backjump conflict above analysis counts back
      exact ⟨_, back'.learn recorded starts⟩
    | decides asks _ _ unassigned decided =>
      obtain ⟨-, propagated, open', -⟩ := asks
      exact ⟨g, (run.propagate propagated).decide open' unassigned decided⟩
  | done o =>
    cases made with
    | stops _ stops left => exact ⟨g, run.stop stops left⟩
    | refutes _ propagated conflict root fails _ =>
      exact ⟨g, (run.propagate propagated).refute conflict root fails⟩
    | succeeds _ propagated open' complete finishes left =>
      exact ⟨g, (run.propagate propagated).succeed open' complete finishes left⟩

/-- So do the rounds of a search. -/
theorem Passes.of_steps (run : Passes skip g .searching q.solver)
    (steps : Round.Steps Search.round n q q') : ∃ g', Passes skip g' .searching q'.solver := by
  induction steps with
  | none => exact ⟨g, run⟩
  | more _ last ih =>
    obtain ⟨g₁, run₁⟩ := ih run
    exact run₁.of_round last

/-- And a search that is answered. -/
theorem Passes.of_solve {budget : β} {policy : π} {o : Outcome π}
    (run : Passes skip g .resting s) (e : s.solve budget policy = .ok o) :
    ∃ g', Passes skip g' .resting o.solver := by
  obtain ⟨idle, -⟩ : s.Idle ∧ s.Logged g := run.fits_logged
  cases hc : s.status.infeasible? with
  | some c =>
    obtain ⟨w, e', -⟩ := solve_infeasible idle hc budget policy
    cases e'.symm.trans e
    exact ⟨g, run⟩
  | none =>
    rw [solve_eq hc] at e
    obtain ⟨n, q, steps, last⟩ := Search.steps_of_run (idle.searching hc) e
    obtain ⟨g₁, run₁⟩ := (run.begin (Status.start_eq hc)).of_steps steps
    exact run₁.of_round last

/-- The solvers of all histories rest in a run. -/
theorem Passes.of_reached {h : List Event} (reached : Reached skip h s) :
    ∃ g, Passes skip g .resting s := by
  induction reached with
  | start => exact ⟨_, .new⟩
  | register _ e ih =>
    obtain ⟨g, run⟩ := ih
    exact ⟨g, run.register e⟩
  | add _ e ih =>
    obtain ⟨g, run⟩ := ih
    exact ⟨_, run.add e⟩
  | solve _ e ih =>
    obtain ⟨g, run⟩ := ih
    exact run.of_solve e

omit [Policy π] [Termination β] in
/-- A search of an open problem begins in such a moment. -/
theorem Passes.of_begun {h : List Event} (reached : Reached skip h s)
    (feasible : s.status.infeasible? = none) (budget : β) (policy : π) :
    ∃ g, Passes skip g .searching (Search.begun s budget policy).solver := by
  obtain ⟨g, run⟩ := Passes.of_reached reached
  exact ⟨g, run.begin (Status.start_eq feasible)⟩

/-- The solver after `2 ^ k` rounds and another propagation, with what is computed of it, where
    the solver that searches comes from a computation that leads to such. -/
theorem Passes.exists_of_rounds {γ : Type} {policy : π} {k : Nat} {f : Solver → γ} {c : γ}
    {x : Except Fault Solver} (reached : ∀ s, x = .ok s → ∃ h, Reached skip h s)
    (e : (x >>= fun s =>
      (Round.repeatPow Search.round k (Search.begun s Budget.unlimited policy)).map fun r =>
        (s.status.start.toOption, r.state?.map fun q => q.solver.propagate.map f)) =
      .ok (some .searching, some (.ok c))) :
    ∃ g s, Passes skip g .propagated s ∧ f s = c := by
  obtain ⟨s, hx, e⟩ := Yields.exists_of_bind e
  obtain ⟨h, history⟩ := reached s hx
  obtain ⟨g, run⟩ := Passes.of_reached history
  obtain ⟨r, outcome, e⟩ := Yields.of_map e
  rw [Prod.mk.injEq, Option.map_eq_some_iff] at e
  obtain ⟨start, q, more, e⟩ := e
  have start : s.status.start = .ok .searching := by
    cases hs : s.status.start <;> rw [hs] at start <;> cases start
    rfl
  obtain ⟨s', propagated, e⟩ := Yields.of_map e
  obtain ⟨g', run'⟩ := (run.begin start).of_steps (Round.steps_of_state outcome more)
  exact ⟨g', s', run'.propagate propagated, e⟩

/-! ## The index -/

theorem ClauseStore.watches_iff_getElem? {st : ClauseStore} {bare : Option ClauseRef}
    {r : ClauseRef} {c : Clause} {l : Lit} (hc : st.get? r = some c) :
    st.Watches bare r l ↔
      bare ≠ some r ∧ 2 ≤ c.length ∧ (c.literals[0]? = some l ∨ c.literals[1]? = some l) := by
  match e : c.literals with
  | [] =>
    have short : c.length < 2 := by simp [Clause.length, e]
    exact iff_of_false (not_watches_of_short hc short) fun h => by omega
  | [a] =>
    have short : c.length < 2 := by simp [Clause.length, e]
    exact iff_of_false (not_watches_of_short hc short) fun h => by omega
  | a :: b :: rest =>
    have long : 2 ≤ c.length := by simp [Clause.length, e]
    rw [watches_iff hc e]
    simp [long, eq_comm]

/-- The watch lists are an exact index, in every moment of a run. The list of `l` has one watcher
    of a clause with at least two literals if `-l` is the first or the second of them, and none
    otherwise, unless the clause is the one that failed when it was added. There are no other
    watchers, and what a watcher has cached is another literal of its clause. The clauses are
    those that were created, with their literals in some order. -/
theorem watchLists_exact (run : Passes skip g m s) :
    (∀ r c l, s.clauses.get? r = some c → 2 ≤ c.length → g.failed ≠ some r →
      (s.propagation.watchers l).countP (fun w => w.clause = r) =
        if c.literals[0]? = some (-l) ∨ c.literals[1]? = some (-l) then 1 else 0) ∧
    (∀ l, ∀ w ∈ s.propagation.watchers l, ∃ c, s.clauses.get? w.clause = some c ∧
      2 ≤ c.length ∧ g.failed ≠ some w.clause ∧
      (c.literals[0]? = some (-l) ∨ c.literals[1]? = some (-l)) ∧
      w.cached ∈ c.literals ∧ w.cached ≠ -l) ∧
    s.clauses.size = g.created.length ∧
    ∀ r c, s.clauses.get? r = some c →
      ∃ d, g.created[r]? = some d ∧ c.literals.Perm d.literals := by
  obtain ⟨-, logged⟩ := run.fits_logged
  have indexes := logged.indexes
  refine ⟨fun r c l hc long notFailed => ?_, fun l w hw => ?_, logged.made.size,
    fun r c hc => ?_⟩
  · have count : (s.propagation.watchers l).countP (fun w => w.clause = r) =
        ((s.propagation.watchers l).map Watcher.clause).count r := by
      rw [List.count, List.countP_map]
      exact List.countP_congr fun w _ => by simp
    rw [count, (indexes.once l).count]
    refine if_congr ?_ rfl rfl
    rw [indexes.mem_iff, ClauseStore.watches_iff_getElem? hc]
    exact ⟨fun watched => watched.2.2, fun first => ⟨notFailed, long, first⟩⟩
  · have watched := indexes.watched hw
    obtain ⟨-, c, -, -, -, hc, -⟩ := id watched
    obtain ⟨notFailed, long, first⟩ := (ClauseStore.watches_iff_getElem? hc).1 watched
    exact ⟨c, hc, long, notFailed, first, indexes.cached l w hw c hc⟩
  · obtain ⟨d, hd, same⟩ := logged.made.clauses r c hc
    exact ⟨d, hd, same.literals⟩

theorem watchLists_exact_two_rules : ∃ g s, Passes true g .propagated s ∧
    s.status = .conflicting 1 ∧
    (∀ r c l, s.clauses.get? r = some c → 2 ≤ c.length → g.failed ≠ some r →
      (s.propagation.watchers l).countP (fun w => w.clause = r) =
        if c.literals[0]? = some (-l) ∨ c.literals[1]? = some (-l) then 1 else 0) ∧
    (∀ l, ∀ w ∈ s.propagation.watchers l, ∃ c, s.clauses.get? w.clause = some c ∧
      2 ≤ c.length ∧ g.failed ≠ some w.clause ∧
      (c.literals[0]? = some (-l) ∨ c.literals[1]? = some (-l)) ∧
      w.cached ∈ c.literals ∧ w.cached ≠ -l) ∧
    s.clauses.size = g.created.length ∧
    ∀ r c, s.clauses.get? r = some c →
      ∃ d, g.created[r]? = some d ∧ c.literals.Perm d.literals := by
  have rounds : ((Solver.new true).addAll [([⟨1, false⟩, ⟨2, true⟩], none),
      ([⟨1, false⟩, ⟨2, false⟩], none)] >>= fun s =>
        (Round.repeatPow Search.round 0
          (Search.begun s Budget.unlimited LowestFirst.mk)).map fun r =>
            (s.status.start.toOption, r.state?.map fun q =>
              q.solver.propagate.map Solver.status)) =
          .ok (some .searching, some (.ok (.conflicting 1))) := by
    cbv
  obtain ⟨g, s, run, conflict⟩ := Passes.exists_of_rounds
    (fun s load => (Reached.of_new load).imp fun _ run => run.1) rounds
  exact ⟨g, s, run, conflict, watchLists_exact run⟩

end Moments

end ClauseLearning
