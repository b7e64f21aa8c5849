/-
  What a search leaves of the problem it was given.

  Model. A search rearranges clauses, learns some, goes up and down many levels, and may be stopped
  between any two rounds. A solver accrues another one when it has its variables, its clauses
  under their references, and the literals of its root level where they were and for the reasons
  they had; when all it has besides are learned clauses; and when these are, in the order in
  which they were kept, what was appended to the learned clauses (`Solver.Accrues`). Above the
  root nothing is asked of the trail.

  Rule. Whatever is done in a round accrues: propagation and a decision let the trail grow, going
  back leaves the root as it is, and learning appends to clauses and learned clauses alike. So
  does a round (`Search.GoesOn.accrues`, `Search.Answers.accrues`), and by induction on the rounds
  a search, however it ends (`solve_accrues`).
-/
import ClauseLearning.Proofs.Solver.Novelty

namespace ClauseLearning

/-! ## The root of a trail -/

namespace Trail

/-- The literals of the root level, oldest first. -/
def rootLiterals (t : Trail) : List Lit := t.literals.filter fun l => t.levelOf l.var = 0

/-- The second trail has at its root what the first one has at its, in the same places and for the
    same causes. -/
structure RootStays (t t' : Trail) : Prop where
  /-- The literals stay in front. -/
  literals : t.rootLiterals <+: t'.rootLiterals
  /-- They keep their causes. -/
  causes : ∀ l ∈ t.rootLiterals, t'.causeAt l.var = t.causeAt l.var

variable {t t' t'' : Trail} {k : Nat}

/-- At the root all literals are of the root level. -/
theorem Valid.rootLiterals_eq (h : t.Valid) (root : t.level = 0) :
    t.rootLiterals = t.literals := by
  refine List.filter_eq_self.2 fun l hl => decide_eq_true ?_
  exact Nat.le_zero.1 (root ▸ h.levelOf_le hl)

theorem RootStays.refl (t : Trail) : t.RootStays t := ⟨List.prefix_rfl, fun _ _ => rfl⟩

theorem RootStays.trans (h : t.RootStays t') (h' : t'.RootStays t'') : t.RootStays t'' where
  literals := h.literals.trans h'.literals
  causes l hl := (h'.causes l (h.literals.subset hl)).trans (h.causes l hl)

/-- A trail that grows keeps its root, whether or not a level is opened. -/
theorem rootStays_of_prefix (literals : t.literals <+: t'.literals)
    (causes : ∀ l ∈ t.literals, t'.causeAt l.var = t.causeAt l.var) : t.RootStays t' where
  literals := by
    obtain ⟨more, e⟩ := literals
    have same : ∀ l ∈ t.literals, decide (t'.levelOf l.var = 0) = decide (t.levelOf l.var = 0) := by
      intro l hl
      rw [levelOf_eq, levelOf_eq, causes l hl]
    rw [rootLiterals, rootLiterals, ← e, List.filter_append, List.filter_congr same]
    exact List.prefix_append ..
  causes l hl := causes l (List.mem_of_mem_filter hl)

/-- A trail that goes back keeps its root. -/
theorem Backtracks.rootStays (h : t.Backtracks t' k) (valid : t.Valid) : t.RootStays t' := by
  have left : ∀ l ∈ t.rootLiterals, l ∈ t'.literals := by
    intro l hl
    obtain ⟨mem, root⟩ := List.mem_filter.1 hl
    exact (h.mem_iff valid).2 ⟨mem, of_decide_eq_true root ▸ Nat.zero_le k⟩
  refine ⟨?_, fun l hl => h.cause_of_mem valid.toCoherent (left l hl)⟩
  have same : ∀ l ∈ t'.literals, decide (t'.levelOf l.var = 0) = decide (t.levelOf l.var = 0) := by
    intro l hl
    rw [h.levelOf valid hl]
  have root : t'.rootLiterals = t.rootLiterals := by
    rw [rootLiterals, List.filter_congr same, h.literals, valid.take_startOf, List.filter_filter]
    refine List.filter_congr fun l _ => ?_
    by_cases root : t.levelOf l.var = 0 <;> simp [root]
  rw [root]

end Trail

/-! ## What is added to a solver -/

namespace Solver

/-- The second solver has what the first one has, and what was learned since. -/
structure Accrues (s s' : Solver) : Prop where
  /-- The variables are the same. -/
  knows : ∀ v, s'.trail.Knows v ↔ s.trail.Knows v
  /-- Every clause is there under its reference, with its literals in some order. -/
  clauses : s'.clauses.Includes s.clauses
  /-- Every other clause is learned. -/
  new : ∀ r c, s'.clauses.get? r = some c → s.clauses.size ≤ r → c.learned = true
  /-- The references of the others, in their order, were appended to those of the learned ones. -/
  learned : s'.learned.toList = s.learned.toList ++
    List.range' s.clauses.size (s'.clauses.size - s.clauses.size)
  /-- The root of the trail stays. -/
  root : s.trail.RootStays s'.trail

variable {s s' s'' : Solver} {c : ClauseRef} {d : Learned}

namespace Accrues

/-- Without a new clause nothing is learned. -/
theorem of_rearranges (clauses : s'.clauses.Rearranges s.clauses)
    (learned : s'.learned = s.learned) (knows : ∀ v, s'.trail.Knows v ↔ s.trail.Knows v)
    (root : s.trail.RootStays s'.trail) : s.Accrues s' where
  knows := knows
  clauses := clauses.clauses
  new r c hc new := by
    have old := clauses.size ▸ ClauseStore.lt_size_of_get? hc
    exact absurd new (Nat.not_le.2 old)
  learned := by rw [learned, clauses.size, Nat.sub_self, List.range'_zero, List.append_nil]
  root := root

/-- A clause is learned. -/
theorem of_add {new : Clause} (clauses : s'.clauses = (s.clauses.add new).2)
    (isLearned : new.learned = true) (learned : s'.learned = s.learned.push s.clauses.size)
    (knows : ∀ v, s'.trail.Knows v ↔ s.trail.Knows v) (root : s.trail.RootStays s'.trail) :
    s.Accrues s' where
  knows := knows
  clauses := clauses ▸ .add s.clauses new
  new r c hc later := by
    rw [clauses] at hc
    rcases ClauseStore.get?_of_add hc with ⟨-, rfl⟩ | old
    · exact isLearned
    · exact absurd later (Nat.not_le.2 (ClauseStore.lt_size_of_get? old))
  learned := by
    have size : s'.clauses.size = s.clauses.size + 1 := by
      rw [clauses]
      exact Table.size_push ..
    rw [learned, size, Nat.add_sub_cancel_left, List.range'_one, Array.toList_push]
  root := root

/-- The status does not matter. -/
theorem withStatus (h : s.Accrues s') (status : Status) :
    s.Accrues { s' with status := status } :=
  ⟨h.knows, h.clauses, h.new, h.learned, h.root⟩

theorem refl (s : Solver) : s.Accrues s := .of_rearranges (.refl _) rfl (fun _ => Iff.rfl) (.refl _)

theorem trans (h : s.Accrues s') (h' : s'.Accrues s'') : s.Accrues s'' where
  knows v := (h'.knows v).trans (h.knows v)
  clauses := h'.clauses.trans h.clauses
  new r c hc new := by
    rcases Nat.lt_or_ge r s'.clauses.size with old | later
    · obtain ⟨c', hc'⟩ := ClauseStore.get?_isSome_of_lt old
      obtain ⟨c'', hc'', same⟩ := h'.clauses r c' hc'
      cases hc''.symm.trans hc
      exact same.learned.trans (h.new r c' hc' new)
    · exact h'.new r c hc later
  learned := by
    have more := h.clauses.size_le
    have more' := h'.clauses.size_le
    have split : s''.clauses.size - s.clauses.size =
        (s'.clauses.size - s.clauses.size) + (s''.clauses.size - s'.clauses.size) := by omega
    rw [h'.learned, h.learned, split, ← List.range'_append_1, Nat.add_sub_cancel' more,
      List.append_assoc]
  root := h.root.trans h'.root

end Accrues

/-! ## The parts of a round -/

theorem accrues_of_propagate (h : s.Searching) (e : s.propagate = .ok s') : s.Accrues s' := by
  have after := (propagate_yields h).of_ok e
  exact .of_rearranges (rearranges_of_propagate h e) (learned_of_propagate h e).1
    after.follows.knows (Trail.rootStays_of_prefix after.trail.literals after.trail.causes)

/-- Consuming the changes and deciding adds nothing to the root. -/
theorem accrues_of_decideOn {v : Var} {polarity consumed : Bool} (h : s.Searching)
    (done : s.propagation.next = s.trail.length) (unassigned : s.assignment.isUnassigned v = true)
    (e : (s.noteConsumed consumed).decideOn v polarity = .ok s') : s.Accrues s' := by
  obtain ⟨-, follows, -, opens⟩ :=
    (decideOn_noteConsumed_yields h done unassigned polarity consumed).of_ok e
  have clauses := (clauses_of_decideOn e).trans (s.clauses_noteConsumed consumed)
  refine .of_rearranges (clauses ▸ .refl _) (learned_of_decideOn e).1 follows.knows
    (Trail.rootStays_of_prefix ?_ opens.causes)
  rw [opens.literals]
  exact List.prefix_append ..

/-- Going back to the root leaves everything but what was above it. -/
theorem accrues_of_leave {status : Status} (sound : s.Sound)
    (watchful : s.propagation.Watchful none s.propagation.next)
    (left : s.leave status = .ok s') : s.Accrues s' := by
  have sound' : Sound { s with status := status } :=
    ⟨sound.grounded, sound.derived, sound.learned, sound.bounded⟩
  obtain ⟨p', rfl, -, -, back, clauses, -⟩ := (cancelUntil_yields sound' watchful (Nat.zero_le _)
    (Nat.min_le_left ..)).of_ok left
  have rearranges : p'.clauses.Rearranges s.clauses := clauses ▸ .refl _
  exact .of_rearranges rearranges rfl back.knows (back.rootStays sound.grounded.trail.toValid)

/-- Above the root a conflict adds a learned clause, and the root stays or grows. -/
theorem Propagated.accrues (after : s.Propagated s') (conflict : s'.status = .conflicting c)
    (above : s'.trail.atRoot = false) (e : s'.resolveConflict c = .ok s'') :
    s'.Accrues s'' := by
  have resolved := after.resolved conflict above e
  have valid := after.sound.grounded.trail.toValid
  obtain ⟨k, t, -, back, ext⟩ := resolved.back
  have root : s'.trail.RootStays s''.trail :=
    (back.rootStays valid).trans (Trail.rootStays_of_prefix ext.literals ext.causes)
  obtain ⟨d, analysis, e⟩ := Yields.exists_of_bind e
  obtain ⟨st, -, e⟩ := Yields.exists_of_bind e
  obtain ⟨s₁, returned, e⟩ := Yields.exists_of_bind e
  obtain ⟨learning, same⟩ := after.learning st conflict above analysis returned
  obtain ⟨p', recorded, rfl⟩ := (record_yields learning.learnable).of_ok e
  have clauses : p'.clauses = (s'.clauses.add (learnedClause s₁.trail d)).2 :=
    recorded.clauses.trans (congrArg (fun store => (ClauseStore.add store _).2) same)
  have learned : s₁.learned.push s₁.clauses.size = s'.learned.push s'.clauses.size := by
    rw [(learned_of_cancelUntil returned).1, same]
  exact .of_add clauses rfl learned resolved.follows.knows root

end Solver

/-! ## Rounds and searches -/

section Searches

variable {π β : Type} [Policy π] [Termination β]

namespace Search

open Round (Steps)

variable {q q' : Search π β} {o : Outcome π} {n : Nat}

theorem GoesOn.accrues (h : q.solver.Searching) (g : q.GoesOn q') :
    q.solver.Accrues q'.solver := by
  cases g with
  | learns _ propagated conflict above resolved _ =>
    have after := (Solver.propagate_yields h).of_ok propagated
    have learned := after.accrues conflict above resolved
    exact ((Solver.accrues_of_propagate h propagated).trans learned).withStatus _
  | decides asks _ _ unassigned decided =>
    obtain ⟨-, propagated, open', -⟩ := asks
    have after := (Solver.propagate_yields h).of_ok propagated
    have opened := Solver.accrues_of_decideOn (after.searching open') after.done unassigned decided
    exact (Solver.accrues_of_propagate h propagated).trans opened

omit [Policy π] in
theorem Answers.accrues (h : q.solver.Searching) (a : q.Answers o) :
    q.solver.Accrues o.solver := by
  cases a with
  | stops _ _ left => exact Solver.accrues_of_leave h.toSound h.watchful left
  | refutes _ propagated _ _ _ _ => exact (Solver.accrues_of_propagate h propagated).withStatus _
  | succeeds _ propagated open' _ _ left =>
    have after := (Solver.propagate_yields h).of_ok propagated
    have searching := after.searching open'
    exact (Solver.accrues_of_propagate h propagated).trans
      (Solver.accrues_of_leave searching.toSound searching.watchful left)

theorem accrues_of_steps (h : q.solver.Searching) (steps : Steps round n q q') :
    q.solver.Accrues q'.solver := by
  induction steps with
  | none => exact .refl _
  | more before last ih =>
    have searching := (searching_of_steps h before).1
    exact (ih h).trans (GoesOn.accrues searching (cases_of_round last))

end Search

open Round (Steps)

variable {skip : Bool} {h : List Event} {s : Solver}

/-- Over few variables the clauses stay few, since only new ones are learned. -/
theorem Passes.fewClauses {g : Log} {q : Search π β} (run : Passes skip g .searching q.solver)
    (le : q.solver.clauses.size + 3 ^ q.solver.assignment.numVariables ≤ ClauseRef.bound) :
    q.FewClauses := by
  intro n q' steps
  obtain ⟨g', run'⟩ := run.of_steps steps
  obtain ⟨searching, -⟩ : q.solver.Searching ∧ q.solver.Logged g := run.fits_logged
  have accrues := Search.accrues_of_steps searching steps
  obtain ⟨vs, number, known⟩ := searching.grounded.trail.counted.exists_variables
  have number : vs.length = q.solver.assignment.numVariables := number
  have learned := run'.size_learned_lt fun v hv => known v ((accrues.knows v).1 hv)
  have appended := congrArg List.length accrues.learned
  rw [List.length_append, List.length_range', Array.length_toList, Array.length_toList] at appended
  rw [number] at learned
  omega

/-- After any history a search begins and ends at the root. It leaves the variables, the clauses
    under their references up to the order of their literals, and the trail, which is a part in
    front of the new one. Clauses that were not there are learned, and their references are those
    that were appended to the learned clauses. All this is so for every answer, and there is one
    unless the statistics are full or the policy has named no unassigned variable. -/
theorem solve_accrues (run : Reached skip h s) (budget : β) (policy : π) :
    Ends (s.solve budget policy)
      (fun o => s.level = 0 ∧ o.solver.level = 0 ∧ s.Accrues o.solver ∧
        s.trail.literals <+: o.solver.trail.literals ∧
        ∀ l ∈ s.trail.literals, o.solver.trail.causeAt l.var = s.trail.causeAt l.var)
      fun fault => s.status.infeasible? = none ∧
        ∃ n q, Steps Search.round n (Search.begun s budget policy) q ∧ q.Fails fault := by
  have idle := run.idle
  -- at the root all literals are root literals
  have finish : ∀ o : Outcome π, o.solver.Idle → s.Accrues o.solver →
      s.level = 0 ∧ o.solver.level = 0 ∧ s.Accrues o.solver ∧
        s.trail.literals <+: o.solver.trail.literals ∧
        ∀ l ∈ s.trail.literals, o.solver.trail.causeAt l.var = s.trail.causeAt l.var := by
    intro o idle' accrues
    have before := idle.grounded.trail.toValid.rootLiterals_eq idle.root
    have after := idle'.grounded.trail.toValid.rootLiterals_eq idle'.root
    have literals := accrues.root.literals
    have causes := accrues.root.causes
    rw [show s.trail.rootLiterals = s.trail.literals from before] at literals causes
    exact ⟨idle.root, idle'.root, accrues, after ▸ literals, causes⟩
  cases hc : s.status.infeasible? with
  | some c =>
    obtain ⟨w, e, -⟩ := Solver.solve_infeasible idle hc budget policy
    rw [e]
    exact finish _ idle (.refl s)
  | none =>
    have begins := idle.searching hc
    rw [Solver.solve_eq hc]
    obtain ⟨n, q, steps, ⟨o, last, e⟩ | ⟨f, last, e⟩⟩ :=
      Search.run_halts (q := Search.begun s budget policy) begins
    · have searching := (Search.searching_of_steps begins steps).1
      have accrues := (Search.accrues_of_steps begins steps).trans
        (Search.Answers.accrues searching (Search.cases_of_round last))
      rw [e]
      exact finish o (Search.run_answers begins e).1 ⟨accrues.knows, accrues.clauses, accrues.new,
        accrues.learned, accrues.root⟩
    · have fails := Search.round_ends (Search.searching_of_steps begins steps).1
      rw [last] at fails
      rw [e]
      exact ⟨rfl, n, q, steps, fails⟩

/-- 1 is decided on, -1 is learned, 2 is decided on, and the search is stopped there. -/
theorem solve_accrues_stopped : ∃ h s o, Reached true h s ∧
    s.solve (Budget.ofDecisions 2) LowestFirst.mk = .ok o ∧ o.verdict = .unknown ∧
    s.trail.literals = [⟨3, true⟩] ∧ o.solver.trail.literals = [⟨3, true⟩, ⟨1, false⟩] ∧
    s.learned = #[] ∧ o.solver.learned = #[3] ∧ s.level = 0 ∧ o.solver.level = 0 ∧
    s.Accrues o.solver := by
  have answers : ((Solver.new true).addAll [([⟨3, true⟩], none),
      ([⟨1, false⟩, ⟨2, true⟩], none), ([⟨1, false⟩, ⟨2, false⟩], none)] >>= fun s =>
        (s.solve (Budget.ofDecisions 2) LowestFirst.mk).map fun o =>
          (o.verdict, (s.trail.literals, o.solver.trail.literals), s.learned, o.solver.learned)) =
      .ok (.unknown, ([⟨3, true⟩], [⟨3, true⟩, ⟨1, false⟩]), #[], #[3]) := by
    cbv
  obtain ⟨s, load, answers⟩ := Yields.exists_of_bind answers
  obtain ⟨o, e, answers⟩ := Yields.of_map answers
  simp only [Prod.mk.injEq] at answers
  obtain ⟨verdict, ⟨before, after⟩, learned, learned'⟩ := answers
  obtain ⟨h, run, -⟩ := Reached.of_new load
  obtain ⟨root, root', accrues, -⟩ :=
    (solve_accrues run (Budget.ofDecisions 2) LowestFirst.mk).of_ok e
  exact ⟨h, s, o, run, e, verdict, before, after, learned, learned', root, root', accrues⟩

end Searches

end ClauseLearning
