/-
  What is learned from a conflict, and where the search goes on.

  Model. In a run a clause is analysed when it is in conflict at the end of propagation, and when it
  is not empty and shows that there is no solution (`Solver.Blames`). The two sides of learning
  are what the analysis gives (`Propagation.Learns`) and what is left of the solver when it has gone
  back and kept the clause (`Solver.Backjumps`). Both are said in terms of the solver alone, not of
  the analysis: false literals, levels, causes, watchers and valuations.

  Rule. In every moment of every run the analysis gives what it should (`firstUip_learns`). Above
  the root it ends at the first implication point (`firstUip_first`), and resolving the conflict
  leaves the solver where it should be, unless the counters are full (`resolveConflict_backjumps`).
  They are not as long as the clauses are few (`resolveConflict_backjumps_of_few`).
-/
import ClauseLearning.Proofs.Propagation.ImplicationPoint
import ClauseLearning.Proofs.Solver.Room

namespace ClauseLearning

/-! ## Analysis -/

/-- The highest level of the literals, the root if there are none. -/
def Trail.highestLevel (t : Trail) (ls : List Lit) : Nat :=
  ls.foldl (fun m l => max m (t.levelOf l.var)) 0

namespace Analysis

variable {p : Propagation} {a a' : Analysis} {r : ClauseRef}

theorem antecedents_of_meet {t : Trail} {l : Lit} (e : meet t a l = .ok a') :
    a'.antecedents = a.antecedents := by
  unfold meet at e
  split at e
  · cases e
    rfl
  · obtain ⟨cause, -, e⟩ := Yields.exists_of_bind e
    dsimp only at e
    split at e <;> cases e <;> rfl

theorem antecedents_of_resolve {passed : Option Lit} (e : resolve p a r passed = .ok a') :
    a'.antecedents = r :: a.antecedents := by
  obtain ⟨c, -, e⟩ := Yields.exists_of_bind e
  have meets : ∀ b l b', b.antecedents = r :: a.antecedents → meet p.trail b l = .ok b' →
      b'.antecedents = r :: a.antecedents :=
    fun _ _ _ before met => (antecedents_of_meet met).trans before
  exact Yields.keeps_of_foldlM meets rfl e

theorem antecedents_of_walk {older : List Lit} {d : Learned} (e : walk p a older = .ok d) :
    a.antecedents.reverse <+: d.antecedents := by
  induction older generalizing a with
  | nil => cases e
  | cons l older ih =>
    unfold walk at e
    split at e
    · exact ih e
    · split at e
      · cases e
        exact List.prefix_rfl
      · obtain ⟨pending, -, e⟩ := Yields.exists_of_bind e
        obtain ⟨cause, -, e⟩ := Yields.exists_of_bind e
        split at e
        · cases e
        · obtain ⟨a', resolved, e⟩ := Yields.exists_of_bind e
          have more := ih e
          rw [antecedents_of_resolve resolved, List.reverse_cons] at more
          exact (List.prefix_append ..).trans more

end Analysis

namespace Propagation

variable {p : Propagation} {c : ClauseRef} {d : Learned}

/-- The clause in conflict is the first one to be resolved. -/
theorem head_of_firstUip (e : p.firstUip c = .ok d) : d.antecedents.head? = some c := by
  obtain ⟨a, resolved, e⟩ := Yields.exists_of_bind e
  split at e
  · cases e
  · obtain ⟨more, e⟩ := Analysis.antecedents_of_walk e
    rw [← e, Analysis.antecedents_of_resolve resolved]
    rfl

/-- What is learned from the clause `c`. -/
structure Learns (p : Propagation) (c : ClauseRef) (d : Learned) : Prop where
  /-- The literals are over different variables. -/
  distinct : (d.literals.map Lit.var).Nodup
  /-- They are false. -/
  false : ∀ l ∈ d.literals, p.trail.isFalse l = true
  /-- The last one has its value since the current level. -/
  current : p.trail.levelOf d.asserting.var = p.trail.level
  /-- The others have not. -/
  others : ∀ l ∈ d.others, p.trail.levelOf l.var ≠ p.trail.level
  /-- The backjump level is the highest level of the others. -/
  backjump : d.backjump = p.trail.highestLevel d.others
  /-- It is below the current level, unless that is the root. -/
  below : p.trail.level ≠ 0 → d.backjump < p.trail.level
  /-- The first antecedent is the clause in conflict. -/
  first : d.antecedents.head? = some c
  /-- The antecedents are kept. -/
  kept : ∀ r ∈ d.antecedents, ∃ e, p.clauses.get? r = some e
  /-- What satisfies the antecedents satisfies the literals. -/
  follows : ∀ m : Valuation,
    (∀ r ∈ d.antecedents, ∀ e, p.clauses.get? r = some e → m.Satisfies e.literals) →
      m.Satisfies d.literals
  /-- At the root there is one literal. -/
  alone : p.trail.level = 0 → d.literals = [d.asserting]

theorem Asserts.false (a : p.Asserts d) : ∀ l ∈ d.literals, -l ∈ p.trail.literals := by
  intro l hl
  rcases List.mem_append.1 hl with other | last
  · exact (a.earlier l other).1
  · exact List.mem_singleton.1 last ▸ a.asserting

theorem Asserts.backjump_eq (a : p.Asserts d) : d.backjump = p.trail.highestLevel d.others := by
  refine Nat.le_antisymm ?_ (foldl_max_le a.level_le (Nat.zero_le _))
  rcases a.level_eq with ⟨-, zero⟩ | ⟨l, hl, e⟩
  · rw [zero]
    exact Nat.zero_le _
  · have le : ∀ l ∈ d.others, p.trail.levelOf l.var ≤ p.trail.highestLevel d.others :=
      (le_foldl_max 0).2
    exact e ▸ le l hl

/-- The analysis of a clause in conflict gives what is learned from it. -/
theorem learns_of_conflicts (h : p.Grounded) (conflict : p.Conflicts c) :
    Yields (p.firstUip c) (p.Learns c) := by
  obtain ⟨d, e, a⟩ := firstUip_yields h conflict
  refine .of_eq e {
    distinct := a.nodup_literals.map_on fun l hl k hk same => ?_
    false := fun l hl => h.trail.isFalse_iff.2 (a.false l hl)
    current := a.current
    others := fun l hl => Nat.ne_of_lt (a.earlier l hl).2
    backjump := a.backjump_eq
    below := fun above => a.backjump_lt (Nat.pos_of_ne_zero above)
    first := head_of_firstUip e
    kept := fun r hr => ClauseStore.get?_isSome_of_lt (a.kept r hr)
    follows := a.entails
    alone := fun root => ?_ }
  · exact Lit.neg_inj (h.trail.eq_of_var_eq (a.false l hl) (a.false k hk) same)
  · cases none : d.others with
    | nil => rw [Learned.literals, none, List.nil_append]
    | cons l rest =>
      -- no level is below the root
      have low := (a.earlier l (none ▸ .head _)).2
      rw [root] at low
      exact absurd low (Nat.not_lt_zero _)

end Propagation

/-- In this moment of a run the clause `c` is to blame, and the solver has it analysed. -/
inductive Solver.Blames (s : Solver) (c : ClauseRef) : Moment → Prop
  /-- It is in conflict. -/
  | search (conflict : s.status = .conflicting c) : Blames s c .propagated
  /-- It shows that there is no solution, and has a literal. -/
  | root {e : Clause} (infeasible : s.status.infeasible? = some c) (he : s.clauses.get? c = some e)
    (some : e.isEmpty = false) : Blames s c .resting

section Runs

variable {skip : Bool} {g : Log} {m : Moment} {s s' : Solver} {c : ClauseRef} {d : Learned}
  {p : Propagation}

open Solver Propagation

theorem Passes.conflicts (run : Passes skip g m s) (blames : s.Blames c m) :
    s.propagation.Grounded ∧ s.propagation.Conflicts c := by
  obtain ⟨fits, -⟩ := run.fits_logged
  cases blames with
  | search conflict =>
    obtain ⟨s₀, after⟩ := fits
    exact ⟨after.sound.grounded, (after.conflicts conflict).1⟩
  | root infeasible he some =>
    have idle : s.Idle := fits
    refine ⟨idle.grounded, ?_⟩
    refine idle.grounded.conflicts_at_root idle.root (idle.refuted c infeasible) he fun none => ?_
    rw [Clause.isEmpty, none] at some
    cases some

/-- Whenever a clause is analysed in a run, the analysis gives what is learned from it. -/
theorem firstUip_learns (run : Passes skip g m s) (blames : s.Blames c m) :
    Yields (s.propagation.firstUip c) (s.propagation.Learns c) := by
  obtain ⟨grounded, conflicts⟩ := run.conflicts blames
  exact learns_of_conflicts grounded conflicts

/-- A run in which 1 is decided on and makes 3 true, and then 2 is, which makes 4 true by the second
    clause and false by the third one. -/
theorem exists_conflict : ∃ g s, Passes true g .propagated s ∧ s.status = .conflicting 2 ∧
    s.trail.atRoot = false ∧
    s.propagation.firstUip 2 = .ok ⟨[⟨1, false⟩, ⟨3, false⟩], ⟨2, false⟩, 1, [2, 1]⟩ ∧
    (s.resolveConflict 2).map (fun s' => s'.trail.literals) =
      .ok [⟨1, true⟩, ⟨3, true⟩, ⟨2, false⟩] := by
  have rounds : ((Solver.new true).addAll [([⟨1, false⟩, ⟨3, true⟩], none),
      ([⟨2, false⟩, ⟨3, false⟩, ⟨4, true⟩], none),
      ([⟨1, false⟩, ⟨2, false⟩, ⟨4, false⟩], none)] >>= fun s =>
        (Round.repeatPow Search.round 1
          (Search.begun s Budget.unlimited LowestFirst.mk)).map fun r =>
            (s.status.start.toOption, r.state?.map fun q => q.solver.propagate.map fun s =>
              (s.status, s.trail.atRoot, s.propagation.firstUip 2,
                (s.resolveConflict 2).map fun s' => s'.trail.literals))) =
          .ok (some .searching, some (.ok (.conflicting 2, false,
            .ok ⟨[⟨1, false⟩, ⟨3, false⟩], ⟨2, false⟩, 1, [2, 1]⟩,
            .ok [⟨1, true⟩, ⟨3, true⟩, ⟨2, false⟩]))) := by
    cbv
  obtain ⟨g, s, run, found⟩ := Passes.exists_of_rounds
    (fun s load => (Reached.of_new load).imp fun _ run => run.1) rounds
  rw [Prod.mk.injEq, Prod.mk.injEq, Prod.mk.injEq] at found
  exact ⟨g, s, run, found⟩

theorem firstUip_learns_three_literals : ∃ g s, Passes true g .propagated s ∧
    s.Blames 2 .propagated ∧
    s.propagation.Learns 2 ⟨[⟨1, false⟩, ⟨3, false⟩], ⟨2, false⟩, 1, [2, 1]⟩ := by
  obtain ⟨g, s, run, conflict, -, analysis, -⟩ := exists_conflict
  exact ⟨g, s, run, .search conflict, (firstUip_learns run (.search conflict)).of_ok analysis⟩

/-- At a conflict above the root everything in front of a place of the current level was propagated,
    and the watch lists are right. -/
theorem Passes.watchful (run : Passes skip g .propagated s) (conflict : s.status = .conflicting c)
    (above : s.trail.atRoot = false) : s.propagation.Conflicts c ∧ s.trail.level ≠ 0 ∧
      ∃ n, (∀ m ∈ s.trail.limits, m ≤ n) ∧ s.propagation.Watchful none n := by
  obtain ⟨⟨s₀, after⟩, -⟩ := run.fits_logged
  obtain ⟨conflicts, complete⟩ := after.conflicts conflict
  exact ⟨conflicts, Nat.ne_of_gt (level_pos above), complete⟩

/-- The analysis of a conflict above the root ends at the first implication point: the negation of
    the asserting literal is on every path from the decision of the level to the conflict, and no
    later literal of the trail is. -/
theorem firstUip_first (run : Passes skip g .propagated s) (conflict : s.status = .conflicting c)
    (above : s.trail.atRoot = false) :
    Yields (s.propagation.firstUip c) fun d => s.propagation.FirstPoint c (-d.asserting) := by
  obtain ⟨conflicts, deep, n, current, watchful⟩ := run.watchful conflict above
  exact watchful.firstUip_firstPoint current deep conflicts

/-- 1 is decided on, and the point is 2, behind the decision: 2 makes 3 true and false. -/
theorem firstUip_first_behind_decision : ∃ g s, Passes true g .propagated s ∧
    s.status = .conflicting 2 ∧ s.trail.atRoot = false ∧
    s.trail.literals = [⟨1, true⟩, ⟨2, true⟩, ⟨3, true⟩] ∧
    s.trail.decision? = some ⟨1, true⟩ ∧ s.propagation.FirstPoint 2 ⟨2, true⟩ := by
  have rounds : ((Solver.new true).addAll [([⟨1, false⟩, ⟨2, true⟩], none),
      ([⟨2, false⟩, ⟨3, true⟩], none), ([⟨2, false⟩, ⟨3, false⟩], none)] >>= fun s =>
        (Round.repeatPow Search.round 0
          (Search.begun s Budget.unlimited LowestFirst.mk)).map fun r =>
            (s.status.start.toOption, r.state?.map fun q => q.solver.propagate.map fun s =>
              (s.status, s.trail.atRoot, s.trail.literals, s.trail.decision?,
                s.propagation.firstUip 2))) =
          .ok (some .searching, some (.ok (.conflicting 2, false,
            [⟨1, true⟩, ⟨2, true⟩, ⟨3, true⟩], some ⟨1, true⟩,
            .ok ⟨[], ⟨2, false⟩, 0, [2, 1]⟩))) := by
    cbv
  obtain ⟨g, s, run, found⟩ := Passes.exists_of_rounds
    (fun s load => (Reached.of_new load).imp fun _ run => run.1) rounds
  simp only [Prod.mk.injEq] at found
  obtain ⟨conflict, above, literals, decision, analysis⟩ := found
  exact ⟨g, s, run, conflict, above, literals, decision,
    (firstUip_first run conflict above).of_ok analysis⟩

/-! ## Going back -/

/-- What is left of the solver when it has gone back from a conflict and kept the clause `e` for
    what was learned. -/
structure Solver.Backjumps (s : Solver) (d : Learned) (e : Clause) (s' : Solver) : Prop where
  /-- The level is the highest one of the other literals. -/
  level : s'.level = s.trail.highestLevel d.others
  /-- The levels up to this one are left as they were. -/
  limits : s'.trail.limits = s.trail.limits.take s'.level
  /-- So are their literals, and the asserting one is behind them. -/
  literals : s'.trail.literals =
    (s.trail.literals.filter fun l => s.trail.levelOf l.var ≤ s'.level) ++ [d.asserting]
  /-- The literals that are left keep their causes. -/
  causes : ∀ l ∈ s.trail.literals, s.trail.levelOf l.var ≤ s'.level →
    s'.trail.causeAt l.var = s.trail.causeAt l.var
  /-- The new clause has forced the asserting literal on this level. -/
  cause : s'.trail.causeAt d.asserting.var = ⟨s'.level, some s.clauses.size⟩
  /-- It is the only new clause. -/
  clauses : s'.clauses = (s.clauses.add e).2
  /-- It has the literals that were learned. -/
  perm : e.literals.Perm d.literals
  /-- It is a learned one, with its antecedents. -/
  learned : e.learned = true ∧ e.antecedents = d.antecedents
  /-- All but the asserting one are still false. -/
  false : ∀ l ∈ d.others, s'.trail.isFalse l = true
  /-- The asserting literal is the first one. -/
  first : e.literals[0]? = some d.asserting
  /-- The second one, if there is one, is of this level. -/
  second : 2 ≤ e.length → ∃ l, e.literals[1]? = some l ∧ s'.trail.levelOf l.var = s'.level
  /-- Then the clause has one watcher for each of the two, and no others. -/
  watchers : 2 ≤ e.length → ∀ l,
    (s'.propagation.watchers l).countP (fun w => w.clause = s.clauses.size) =
      if e.literals[0]? = some (-l) ∨ e.literals[1]? = some (-l) then 1 else 0
  /-- The asserting literal is the only one left to propagate. -/
  queue : s'.trail.literals.drop s'.propagation.next = [d.asserting]

/-- A clause is watched as often as the index says. -/
theorem ClauseStore.Indexes.countP_clause {st : ClauseStore} {lists : Lit → List Watcher}
    (h : st.Indexes none lists) {r : ClauseRef} {e : Clause} (he : st.get? r = some e)
    (long : 2 ≤ e.length) (l : Lit) : (lists l).countP (fun w => w.clause = r) =
      if e.literals[0]? = some (-l) ∨ e.literals[1]? = some (-l) then 1 else 0 := by
  have count : (lists l).countP (fun w => w.clause = r) =
      ((lists l).map Watcher.clause).count r := by
    rw [List.count, List.countP_map]
    exact List.countP_congr fun w _ => by simp
  rw [count, (h.once l).count]
  refine if_congr ?_ rfl rfl
  rw [h.mem_iff, watches_iff_getElem? he]
  simp [long]

namespace Solver.Returns

/-- A literal of the level gone back to keeps its level. -/
theorem levelOf (h : s.Returns d p s') {l : Lit} (hl : l ∈ d.others) :
    s'.trail.levelOf l.var = p.trail.levelOf l.var :=
  h.recorded.trail.levelOf (l := -l) (h.learnable.false l hl)

/-- The second literal of the new clause is of the level gone back to. -/
theorem second (h : s.Returns d p s') (long : 2 ≤ (learnedClause p.trail d).length) :
    ∃ l, (learnedClause p.trail d).literals[1]? = some l ∧ s'.trail.levelOf l.var = s'.level := by
  have literals := literals_learnedClause p.trail h.learnable.nodup
  match e : (learnedClause p.trail d).literals with
  | [] => simp [Clause.length, e] at long
  | [a] => simp [Clause.length, e] at long
  | a :: b :: rest =>
    obtain rfl : a = d.asserting := by
      rw [literals, watchOrder, List.cons.injEq] at e
      exact e.1.symm
    have other : b ∈ d.others := by
      have distinct := ((watchOrder_perm p.trail d).nodup_iff.2 h.learnable.nodup)
      rw [← literals, e, List.nodup_cons, List.mem_cons, not_or] at distinct
      refine ((mem_learnedClause p.trail h.learnable.nodup).1 (by simp [e])).resolve_right ?_
      exact Ne.symm distinct.1.1
    have low := h.learnable.watchful.trail.levelOf_le (h.learnable.false b other)
    have same : p.trail.levelOf b.var = p.trail.level :=
      Nat.le_antisymm low (level_second h.learnable e)
    exact ⟨b, rfl, (h.levelOf other).trans (same.trans h.recorded.trail.level.symm)⟩

theorem backjumps (h : s.Returns d p s') (valid : s.trail.Valid) (a : s.propagation.Asserts d)
    (above : 0 < s.level) : s.Backjumps d (learnedClause p.trail d) s' := by
  have back : p.trail.level = d.backjump := h.back.level (Nat.le_of_lt (a.backjump_lt above))
  have level : s'.level = d.backjump := h.recorded.trail.level.trans back
  have literals := literals_learnedClause p.trail h.learnable.nodup
  have clauses : s'.clauses = (s.clauses.add (learnedClause p.trail d)).2 :=
    h.clauses ▸ h.recorded.clauses
  refine {
    level := level.trans a.backjump_eq
    limits := ?_
    literals := ?_
    causes := fun l hl le => ?_
    cause := ?_
    clauses := clauses
    perm := literals ▸ watchOrder_perm p.trail d
    learned := ⟨rfl, rfl⟩
    false := fun l hl => ?_
    first := by rw [literals]; rfl
    second := h.second
    watchers := fun long => h.recorded.watchful.indexes.countP_clause ?_ long
    queue := ?_ }
  · rw [level]
    exact h.recorded.trail.limits.trans h.back.limits
  · rw [level, ← valid.take_startOf, ← h.back.literals]
    exact h.recorded.literals
  · have stays : l ∈ p.trail.literals := (h.back.mem_iff valid).2 ⟨hl, level ▸ le⟩
    exact (h.recorded.trail.causes l stays).trans
      (h.back.cause_of_mem valid.toCoherent stays)
  · rw [level, ← back]
    exact h.clauses ▸ h.recorded.cause
  · exact h.sound.grounded.trail.isFalse_iff.2 (h.recorded.trail.mem (h.learnable.false l hl))
  · change s'.clauses.get? s.clauses.size = some (learnedClause p.trail d)
    rw [clauses]
    exact ClauseStore.get?_add_self ..
  · have next : s'.propagation.next = p.trail.literals.length :=
      (h.recorded.next.trans h.next).trans (Trail.length_literals _).symm
    rw [next]
    change s'.propagation.trail.literals.drop _ = _
    rw [h.recorded.literals, List.drop_left]

end Solver.Returns

/-- Where what was learned can be counted, resolving a conflict above the root goes back to the
    highest level of the other literals and keeps it there. -/
theorem Passes.backjumps (run : Passes skip g .propagated s) (conflict : s.status = .conflicting c)
    (above : s.trail.atRoot = false) :
    ∃ d, s.propagation.firstUip c = .ok d ∧ d.backjump ≤ s.level ∧
      ∀ st, countLearned s.statistics s.level d = .ok st →
        Yields (s.resolveConflict c) fun s' => ∃ e, s.Backjumps d e s' := by
  obtain ⟨⟨s₀, after⟩, -⟩ := run.fits_logged
  obtain ⟨conflicts, n, current, watchful⟩ := after.conflicts conflict
  have pos := level_pos above
  obtain ⟨d, analysis, asserts⟩ := firstUip_yields after.sound.grounded conflicts
  refine ⟨d, analysis, Nat.le_of_lt (asserts.backjump_lt pos), fun st counts => ?_⟩
  refine (resolveConflict_returns after.sound pos after.done current watchful analysis asserts
    counts).mono fun s' ⟨p, returns⟩ => ?_
  exact ⟨_, returns.backjumps after.sound.grounded.trail.toValid asserts pos⟩

/-- Above the root resolving a conflict goes back to the highest level of the other literals and
    keeps what was learned there; only counters without room are a fault. -/
theorem resolveConflict_backjumps (run : Passes skip g .propagated s)
    (conflict : s.status = .conflicting c) (above : s.trail.atRoot = false) :
    ∃ d, s.propagation.firstUip c = .ok d ∧
      Ends (s.resolveConflict c) (fun s' => ∃ e, s.Backjumps d e s') fun fault =>
        fault = .overflow ∧ (s.statistics.learnedLength.Full d.literals.length ∨
          s.statistics.backtrack.Full (s.level - d.backjump)) := by
  obtain ⟨d, analysis, below, backjumps⟩ := run.backjumps conflict above
  refine ⟨d, analysis, ?_⟩
  rcases countLearned_cases s.statistics s.level below with ⟨st, counts⟩ | ⟨overflow, full⟩
  · exact (backjumps st counts).ends
  · rw [resolveConflict_overflow analysis overflow]
    exact ⟨rfl, full⟩

theorem resolveConflict_backjumps_to_first_level : ∃ g s s' e, Passes true g .propagated s ∧
    s.status = .conflicting 2 ∧ s.trail.atRoot = false ∧ s.resolveConflict 2 = .ok s' ∧
    s'.trail.literals = [⟨1, true⟩, ⟨3, true⟩, ⟨2, false⟩] ∧
    s.Backjumps ⟨[⟨1, false⟩, ⟨3, false⟩], ⟨2, false⟩, 1, [2, 1]⟩ e s' := by
  obtain ⟨g, s, run, conflict, above, analysis, resolved⟩ := exists_conflict
  obtain ⟨s', resolved, literals⟩ := Yields.of_map resolved
  obtain ⟨d, analysis', ends⟩ := resolveConflict_backjumps run conflict above
  cases analysis.symm.trans analysis'
  obtain ⟨e, backjumps⟩ := ends.of_ok resolved
  exact ⟨g, s, s', e, run, conflict, above, resolved, literals, backjumps⟩

/-- As long as the clauses are few, there is room, and resolving a conflict above the root meets no
    fault. -/
theorem resolveConflict_backjumps_of_few (run : Passes skip g .propagated s)
    (conflict : s.status = .conflicting c) (above : s.trail.atRoot = false)
    (few : s.clauses.size < ClauseRef.bound) :
    ∃ d, s.propagation.firstUip c = .ok d ∧
      Yields (s.resolveConflict c) fun s' => ∃ e, s.Backjumps d e s' := by
  obtain ⟨d, analysis, below, backjumps⟩ := run.backjumps conflict above
  refine ⟨d, analysis, ?_⟩
  rcases countLearned_cases s.statistics s.level below with ⟨st, counts⟩ | ⟨-, full⟩
  · exact backjumps st counts
  · obtain ⟨⟨s₀, after⟩, -⟩ := run.fits_logged
    have full := (after.full conflict analysis full).mono after.sound.length_le_varBound
    exact absurd full (run.not_full few)

end Runs

end ClauseLearning
