/-
  Problems that are found infeasible.

  Model. A history has failed once an added clause was false at the root or a search was answered
  with a refutation (`Failed`). A solver is refuted for the reasons `w` when its status names a
  clause in conflict and `w` is the refutation it gives for that clause (`Solver.Refuted`).

  Refutations are not kept: every search that is asked for one takes it from the trail and the
  clauses again. Registering a variable is all that still happens to a refuted solver, and it
  gives the analysis room for further variables, none of which is read.

  Rule. `infeasibility_exact_and_final`: as long as a history has not failed, adding a clause fails
  exactly when all its literals are false at the root. From then on every addition is refused and
  every search gives the one refutation, whatever is called in between.
-/
import ClauseLearning.Proofs.Propagation.Sorting
import ClauseLearning.Proofs.Solver.Calls

namespace ClauseLearning

/-! ## Room for further variables -/

namespace Trail

/-- The second trail is the first one with further variables, if any. -/
structure Roomier (t t' : Trail) : Prop where
  /-- The literals and the levels are the same. -/
  entries : t'.entries = t.entries
  /-- The causes kept are there. -/
  causes : ∀ v c, t.causes.get? v = some c → t'.causes.get? v = some c

variable {t t' : Trail}

theorem roomier_of_register {v : Var} (e : t.register v = .ok t') : t.Roomier t' := by
  obtain ⟨assignment, causes, entries⟩ := t
  obtain ⟨a, rfl⟩ : ∃ a, t' = ⟨a, causes.grow v Cause.none, entries⟩ := by
    unfold register at e
    dsimp only at e
    split at e
    · cases e
      exact ⟨_, rfl⟩
    · obtain ⟨a, -, e⟩ := Yields.exists_of_bind e
      cases e
      exact ⟨a, rfl⟩
  refine ⟨rfl, fun w c hw => ?_⟩
  rw [Table.get?_grow, if_pos (Table.lt_size_of_get? hw)]
  exact hw

namespace Roomier

theorem level (h : t.Roomier t') : t'.level = t.level := by
  rw [Trail.level, h.entries, Trail.level]

theorem literals (h : t.Roomier t') : t'.literals = t.literals := by
  rw [Trail.literals, h.entries, Trail.literals]

theorem causeOf (h : t.Roomier t') (v : Var) : Grants (t.causeOf v) (t'.causeOf v) :=
  fun c hc => Table.read_eq_ok_iff.2 (h.causes v c (Table.read_eq_ok_iff.1 hc))

end Roomier

end Trail

namespace Propagation

/-- The second state has the clauses of the first one, and its trail with further variables, if
    any. -/
structure Roomier (p p' : Propagation) : Prop where
  /-- The clauses are the same. -/
  clauses : p'.clauses = p.clauses
  /-- The trail is the same, but for variables. -/
  trail : p.trail.Roomier p'.trail

variable {p p' : Propagation}

theorem roomier_of_register {v : Var} (e : p.register v = .ok p') : p.Roomier p' := by
  obtain ⟨trail, clauses, watches, next⟩ := p
  obtain ⟨trail', registered, e⟩ := Yields.exists_of_bind e
  cases e
  exact ⟨rfl, Trail.roomier_of_register registered⟩

end Propagation

namespace Analysis

variable {p p' : Propagation} {t t' : Trail}

theorem meet_grants (h : t.Roomier t') (a : Analysis) (l : Lit) :
    Grants (meet t a l) (meet t' a l) := by
  unfold meet
  rw [h.level]
  split
  · exact .refl _
  · exact (h.causeOf l.var).bind fun c => .refl _

theorem resolve_grants (h : p.Roomier p') (a : Analysis) (r : ClauseRef) (passed : Option Lit) :
    Grants (resolve p a r passed) (resolve p' a r passed) := by
  unfold resolve
  rw [h.clauses]
  exact (Grants.refl _).bind fun c => .foldlM (meet_grants h.trail) _ _

theorem walk_grants (h : p.Roomier p') (a : Analysis) (ls : List Lit) :
    Grants (walk p a ls) (walk p' a ls) := by
  induction ls generalizing a with
  | nil => exact .refl _
  | cons l older ih =>
    unfold walk
    split
    · exact ih a
    · split
      · exact .refl _
      · refine (Grants.refl _).bind fun pending => (h.trail.causeOf l.var).bind fun c => ?_
        cases c.reason with
        | none => exact .refl _
        | some r => exact (resolve_grants h _ r _).bind ih

end Analysis

/-- What the analysis learns from a conflict does not depend on the room for variables. -/
theorem Propagation.Roomier.firstUip {p p' : Propagation} (h : p.Roomier p') (c : ClauseRef) :
    Grants (p.firstUip c) (p'.firstUip c) := by
  unfold Propagation.firstUip
  refine (Analysis.resolve_grants h _ c none).bind fun a => ?_
  rw [h.trail.literals]
  split
  · exact .refl _
  · exact Analysis.walk_grants h a _

theorem Refutation.learnedClause?_of_new {clauses : ClauseStore}
    {implied : List (Lit × Option ClauseRef)} {conflicting : ClauseRef} {learned : Option Clause}
    {w : Refutation} (e : Refutation.new clauses implied conflicting learned = .ok w) :
    w.learnedClause? = .ok learned := by
  obtain ⟨reasons, -, e⟩ := Yields.exists_of_bind e
  cases learned with
  | none =>
    cases e
    rfl
  | some c =>
    cases e
    change (do return some (← ClauseStore.read (clauses.add c).2 clauses.size)) = _
    rw [ClauseStore.read_eq (ClauseStore.get?_add_self clauses c)]
    rfl

namespace Solver

variable {s s' : Solver} {c : ClauseRef} {w : Refutation}

/-- Nor does the refutation. -/
theorem refute_grants (h : s.propagation.Roomier s'.propagation) (c : ClauseRef) :
    Grants (s.refute c) (s'.refute c) := by
  have root : s'.trail.atRoot = s.trail.atRoot := by
    rw [Trail.atRoot, Trail.atRoot]
    exact congrArg (· == 0) h.trail.level
  have clauses : s'.clauses = s.clauses := h.clauses
  have literals : s'.trail.literals = s.trail.literals := h.trail.literals
  have learned : Grants (s.rootClause? c) (s'.rootClause? c) := by
    unfold rootClause?
    rw [clauses]
    refine (Grants.refl _).bind fun d => ?_
    split
    · exact .refl _
    · exact (h.firstUip c).bind fun d => .refl _
  unfold refute
  rw [root, literals, clauses]
  split
  · exact .refl _
  · refine learned.bind fun d => Grants.bind (.mapM (fun l => ?_) _) fun implied => .refl _
    exact (h.trail.causeOf l.var).bind fun cause => .refl _

/-! ## Solvers that are refuted -/

/-- The status names a clause in conflict, for which the solver gives the refutation. -/
def Refuted (s : Solver) (w : Refutation) : Prop :=
  ∃ c, s.status.infeasible? = some c ∧ s.refute c = .ok w

/-- Whatever is called, every addition is refused and changes nothing, and every search answers with
    this refutation at once. -/
def StaysRefuted (s : Solver) (w : Refutation) : Prop :=
  ∀ calls s', Call.runAll s calls = .ok s' →
    (∀ ls provenance, s'.add ls provenance = .ok (.refused, s')) ∧
    ∀ {π β : Type} [Policy π] [Termination β] (budget : β) (policy : π),
      s'.solve budget policy = .ok ⟨.unsatisfiable w, s', policy⟩

namespace Refuted

theorem add (h : s.Refuted w) (ls : List Lit) (provenance : Option String) :
    s.add ls provenance = .ok (.refused, s) := by
  obtain ⟨c, hc, -⟩ := h
  unfold Solver.add
  rw [hc]
  rfl

theorem solve {π β : Type} [Policy π] [Termination β] (h : s.Refuted w) (budget : β)
    (policy : π) : s.solve budget policy = .ok ⟨.unsatisfiable w, s, policy⟩ := by
  obtain ⟨c, hc, refuted⟩ := h
  unfold Solver.solve
  rw [hc]
  dsimp only
  rw [refuted]
  rfl

theorem register {v : Var} (h : s.Refuted w) (e : s.register v = .ok s') : s'.Refuted w := by
  obtain ⟨c, hc, refuted⟩ := h
  obtain ⟨status, p, learned, statistics, skip⟩ := s
  unfold Solver.register at e
  dsimp only at e
  split at e
  · cases e
  · obtain ⟨p', registered, e⟩ := Yields.exists_of_bind e
    cases e
    exact ⟨c, hc, refute_grants (Propagation.roomier_of_register registered) c w refuted⟩

/-- No call makes a solver other than refuted, for the same reasons. -/
theorem run {call : Call} (h : s.Refuted w) (e : call.run s = .ok s') : s'.Refuted w := by
  cases call with
  | register v => exact h.register e
  | add ls provenance =>
    obtain ⟨x, added, e⟩ := Yields.exists_of_bind e
    cases (h.add ls provenance).symm.trans added
    cases e
    exact h
  | solve budget policy =>
    obtain ⟨o, solved, e⟩ := Yields.exists_of_bind e
    cases (h.solve budget policy).symm.trans solved
    cases e
    exact h

theorem stays (h : s.Refuted w) : s.StaysRefuted w := by
  intro calls s' e
  have refuted : s'.Refuted w := Yields.keeps_of_foldlM (fun _ _ _ h e => run h e) h e
  exact ⟨refuted.add, refuted.solve⟩

/-- What can be asked of the refutation is answered. -/
theorem answers (h : s.Refuted w) (idle : s.Idle) :
    (∃ c, w.conflictingClause = .ok c) ∧ (∃ d, w.learnedClause? = .ok d) ∧
      ∃ refs, w.conflictRequirements = .ok refs := by
  obtain ⟨c, hc, refuted⟩ := h
  have falsified := idle.refuted c hc
  have explains := (refute_yields idle.toSound idle.root falsified).of_ok refuted
  obtain ⟨refs, requirements, -⟩ :=
    explains.conflictRequirements_yields idle.grounded idle.root falsified
  refine ⟨?_, ?_, refs, requirements⟩
  · obtain ⟨d, hd, -⟩ := falsified
    refine ⟨d, ClauseStore.read_eq ?_⟩
    rw [explains.conflicting]
    exact explains.old c d hd
  · unfold refute at refuted
    split at refuted
    · cases refuted
    · obtain ⟨learned, -, refuted⟩ := Yields.exists_of_bind refuted
      obtain ⟨implied, -, refuted⟩ := Yields.exists_of_bind refuted
      exact ⟨learned, Refutation.learnedClause?_of_new refuted⟩

end Refuted

/-! ## What adding a clause finds -/

/-- A clause is found false exactly if all its literals are false. -/
theorem cases_of_keep {new : Clause} {a : Added} (h : s.propagation.Grounded)
    (e : s.keep new = .ok (a, s')) :
    ((∀ l ∈ new.literals, s.trail.isFalse l = true) ∧ ∃ r, a = .infeasible r ∧
        s'.status = .infeasible r) ∨
      (¬ ∀ l ∈ new.literals, s.trail.isFalse l = true) ∧ (∃ r, a = .kept r) ∧
        s'.status = s.status := by
  obtain ⟨status, p, learned, statistics, skip⟩ := s
  obtain ⟨⟨conflict, p'⟩, added, e⟩ := Yields.exists_of_bind e
  have hc : (p.keep new).2.clauses.get? p.clauses.size = some new :=
    ClauseStore.get?_add_self ..
  have given := ((Propagation.addKept_sorts (p := (p.keep new).2)
    h.trail.toCoherent hc).of_ok added).given
  by_cases false : ∀ l ∈ new.literals, p.trail.isFalse l = true
  · refine .inl ⟨false, ?_⟩
    obtain rfl : conflict = some p.clauses.size := given.trans (if_pos false)
    obtain ⟨status', fails, e⟩ := Yields.exists_of_bind e
    cases e
    refine ⟨_, rfl, ?_⟩
    cases status <;> cases fails <;> rfl
  · refine .inr ⟨false, ?_⟩
    obtain rfl : conflict = none := given.trans (if_neg false)
    cases e
    exact ⟨⟨_, rfl⟩, rfl⟩

/-- With an open problem, adding a clause fails exactly if all its literals are false at the root,
    and otherwise the problem stays open. -/
theorem cases_of_add_open {ls : List Lit} {provenance : Option String} {a : Added} (h : s.Idle)
    (feasible : s.status.infeasible? = none) (e : s.add ls provenance = .ok (a, s')) :
    ((∀ l ∈ ls, s.trail.isFalse l = true) ∧ ∃ r, a = .infeasible r ∧ s'.status = .infeasible r) ∨
      (¬ ∀ l ∈ ls, s.trail.isFalse l = true) ∧ a.error? = none ∧
        s'.status.infeasible? = none := by
  rcases cases_of_add e with ⟨infeasible, -⟩ | ⟨-, s₁, registered, rest⟩
  · rw [feasible] at infeasible
    cases infeasible
  · obtain ⟨idle, ⟨p', rfl, widens⟩, -⟩ :=
      (registerAll_yields h _ (lt_of_registerAll registered)).of_ok registered
    have coherent : p'.trail.Coherent := idle.grounded.trail.toCoherent
    have same : ∀ l, p'.trail.isFalse l = true ↔ s.trail.isFalse l = true := by
      intro l
      have before : s.trail.isFalse l = true ↔ -l ∈ s.propagation.trail.literals :=
        h.grounded.trail.isFalse_iff
      rw [coherent.isFalse_iff, before, widens.literals]
    have falses : (∀ l ∈ (Clause.ofList ls false provenance).literals,
        p'.trail.isFalse l = true) ↔ ∀ l ∈ ls, s.trail.isFalse l = true := by
      simp only [Clause.mem_ofList, same]
    split at rest
    · rename_i skipped
      obtain ⟨rfl, rfl⟩ := rest
      rw [Bool.and_eq_true] at skipped
      refine .inr ⟨fun all => ?_, rfl, feasible⟩
      -- a literal and its negation are not both false
      obtain ⟨l, hl, hn⟩ := Clause.exists_of_isTautology skipped.2
      have left := coherent.isFalse_iff.1 (falses.2 all l hl)
      exact coherent.neg_not_mem left (coherent.isFalse_iff.1 (falses.2 all (-l) hn))
    · rcases cases_of_keep idle.grounded rest with ⟨false, failed⟩ | ⟨false, ⟨r, rfl⟩, status⟩
      · exact .inl ⟨falses.1 false, failed⟩
      · exact .inr ⟨fun all => false (falses.2 all), rfl, status ▸ feasible⟩

end Solver

/-! ## Histories -/

/-- The call has found that there is no solution. -/
def Event.Fails : Event → Prop
  | .added _ _ (.infeasible _) => True
  | .answered (.unsatisfiable _) => True
  | _ => False

/-- One of the calls has found that there is no solution. -/
def Failed (h : List Event) : Prop := ∃ e ∈ h, e.Fails

section Histories

variable {skip : Bool} {h : List Event} {s : Solver} {e : Event} {w : Refutation}

theorem failed_append : Failed (h ++ [e]) ↔ Failed h ∨ e.Fails := by
  simp [Failed, or_and_right, exists_or]

/-- A refutation was the answer of a search that has found that there is no solution. -/
theorem Failed.of_answered (mem : .answered (.unsatisfiable w) ∈ h) : Failed h :=
  ⟨_, mem, trivial⟩

section Search

variable {π β : Type} [Policy π] [Termination β] {q : Search π β} {o : Outcome π}

omit [Policy π] in
/-- The answer of a search is a refutation just when the solver is refuted, for the same reasons. -/
theorem Search.Answers.refuted (h : q.solver.Searching) (a : q.Answers o) :
    (∃ w, o.verdict = .unsatisfiable w ∧ o.solver.Refuted w) ∨
      ¬ (Event.answered o.verdict).Fails ∧ o.solver.status.infeasible? = none := by
  cases a with
  | @stops s status _ stops left =>
    rw [h.status] at stops
    cases stops
    exact .inr ⟨id, congrArg Status.infeasible? (Solver.learned_of_cancelUntil left).2.2⟩
  | @refutes s c status w _ _ conflict _ fails refuted =>
    rw [conflict] at fails
    cases fails
    exact .inl ⟨w, rfl, c, rfl, refuted⟩
  | @succeeds s s' status _ propagated open' _ finishes left =>
    have searching := ((Solver.propagate_yields h).of_ok propagated).searching open'
    rw [searching.status] at finishes
    cases finishes
    exact .inr ⟨id, congrArg Status.infeasible? (Solver.learned_of_cancelUntil left).2.2⟩

theorem Solver.solve_refuted {budget : β} {policy : π} (idle : s.Idle)
    (feasible : s.status.infeasible? = none) (e : s.solve budget policy = .ok o) :
    (∃ w, o.verdict = .unsatisfiable w ∧ o.solver.Refuted w) ∨
      ¬ (Event.answered o.verdict).Fails ∧ o.solver.status.infeasible? = none := by
  have begins := idle.searching feasible
  rw [Solver.solve_eq feasible] at e
  obtain ⟨n, q, steps, last⟩ := Search.steps_of_run begins e
  have searching := (Search.searching_of_steps begins steps).1
  exact Search.Answers.refuted searching (Search.cases_of_round last)

end Search

/-- The problem is open as long as no call has failed. From then on it is refuted, and no search
    has been answered with another refutation. -/
theorem Reached.open_or_refuted (run : Reached skip h s) :
    (¬ Failed h ∧ s.status.infeasible? = none) ∨
      Failed h ∧ ∃ w, s.Refuted w ∧ ∀ w', .answered (.unsatisfiable w') ∈ h → w' = w := by
  -- a call that finds nothing keeps the case; the first one that fails fixes the refutation
  induction run with
  | start => exact .inl ⟨by simp [Failed], rfl⟩
  | @register h s s' v before e ih =>
    rw [failed_append, or_iff_left (show ¬ (Event.registered v).Fails from id)]
    rcases ih with ⟨fine, feasible⟩ | ⟨failed, w, refuted, only⟩
    · obtain ⟨-, ⟨p', rfl, -⟩, -⟩ :=
        (Solver.register_yields before.idle (Solver.lt_of_register e)).of_ok e
      exact .inl ⟨fine, feasible⟩
    · exact .inr ⟨failed, w, refuted.register e, fun w' mem => only w' (by simpa using mem)⟩
  | @add h s s' ls provenance a before e ih =>
    rw [failed_append]
    rcases ih with ⟨fine, feasible⟩ | ⟨failed, w, refuted, only⟩
    · rcases Solver.cases_of_add_open before.idle feasible e with
        ⟨-, r, rfl, status⟩ | ⟨-, fine', feasible'⟩
      · have idle := (before.add e).idle
        obtain ⟨w, refuted, -⟩ :=
          Solver.refute_yields idle.toSound idle.root (idle.refuted r (by rw [status]; rfl))
        refine .inr ⟨.inr trivial, w, ⟨r, by rw [status]; rfl, refuted⟩, fun w' mem => ?_⟩
        exact absurd (Failed.of_answered (by simpa using mem)) fine
      · refine .inl ⟨?_, feasible'⟩
        cases a <;> first | exact not_or.2 ⟨fine, id⟩ | cases fine'
    · cases (refuted.add ls provenance).symm.trans e
      exact .inr ⟨.inl failed, w, refuted, fun w' mem => only w' (by simpa using mem)⟩
  | @solve h s π β _ _ budget policy o before e ih =>
    rw [failed_append]
    rcases ih with ⟨fine, feasible⟩ | ⟨failed, w, refuted, only⟩
    · rcases Solver.solve_refuted before.idle feasible e with
        ⟨w, answer, refuted⟩ | ⟨fine', feasible'⟩
      · rw [answer]
        refine .inr ⟨.inr trivial, w, refuted, fun w' mem => ?_⟩
        rcases List.mem_append.1 mem with old | last
        · exact absurd (Failed.of_answered old) fine
        · cases List.mem_singleton.1 last
          rfl
      · exact .inl ⟨not_or.2 ⟨fine, fine'⟩, feasible'⟩
    · cases (refuted.solve budget policy).symm.trans e
      refine .inr ⟨.inl failed, w, refuted, fun w' mem => ?_⟩
      rcases List.mem_append.1 mem with old | last
      · exact only w' old
      · cases List.mem_singleton.1 last
        rfl

/-- After any history without a failure, adding a clause fails exactly when it is not one that is
    always true and left out, and all its literals, if any, are false at the root. After a failure
    there is one refutation: every search since has been answered with it, what can be asked of it
    is answered, and whatever is called from here on, all further additions are refused without a
    change and all further searches are answered with it too. -/
theorem infeasibility_exact_and_final (run : Reached skip h s) :
    (¬ Failed h → ∀ ls provenance, (∀ l ∈ ls, l.var < Lit.varBound) →
      Yields (s.add ls provenance) fun x => x.1.error? ≠ some .infeasibleState ∧
        (x.1.error? = some .infeasibleClause ↔
          ¬ (skip = true ∧ ∃ l ∈ ls, -l ∈ ls) ∧ ∀ l ∈ ls, s.trail.isFalse l = true)) ∧
    (Failed h → ∃ w, (∀ w', .answered (.unsatisfiable w') ∈ h → w' = w) ∧
      ((∃ c, w.conflictingClause = .ok c) ∧ (∃ d, w.learnedClause? = .ok d) ∧
        ∃ refs, w.conflictRequirements = .ok refs) ∧
      s.StaysRefuted w) := by
  have idle := run.idle
  refine ⟨fun fine ls provenance bounded => ?_, fun failed => ?_⟩
  · obtain ⟨-, feasible⟩ := run.open_or_refuted.resolve_right fun failed => fine failed.1
    obtain ⟨⟨a, s'⟩, e, -⟩ := Solver.add_yields idle ls provenance fun _ => bounded
    refine .of_eq e ?_
    rcases Solver.cases_of_add_open idle feasible e with ⟨all, r, rfl, -⟩ | ⟨some, none, -⟩
    · refine ⟨nofun, iff_of_true rfl ⟨?_, all⟩⟩
      rintro ⟨-, l, hl, hn⟩
      have coherent := idle.grounded.trail.toCoherent
      have left := coherent.isFalse_iff.1 (all l hl)
      exact coherent.neg_not_mem left (coherent.isFalse_iff.1 (all (-l) hn))
    · rw [show a.error? = Option.none from none]
      exact ⟨nofun, iff_of_false nofun fun ⟨_, all⟩ => some all⟩
  · obtain ⟨-, w, refuted, only⟩ := run.open_or_refuted.resolve_left fun open' => open'.1 failed
    exact ⟨w, only, refuted.answers idle, refuted.stays⟩

/-- Four clauses over two variables leave the problem open, and a search finds that they have no
    solution. Before it the empty clause would fail; after it every clause is refused. -/
theorem infeasibility_exact_and_final_search : ∃ h s o w, Reached true h s ∧ ¬ Failed h ∧
    Yields (s.add [] none) (fun x => x.1.error? = some .infeasibleClause) ∧
    s.solve Budget.unlimited LowestFirst.mk = .ok o ∧ o.verdict = .unsatisfiable w ∧
    (∃ refs, w.conflictRequirements = .ok refs) ∧ o.solver.StaysRefuted w := by
  have answers : ((Solver.new true).addAll [([⟨1, true⟩, ⟨2, true⟩], none),
      ([⟨1, true⟩, ⟨2, false⟩], none), ([⟨1, false⟩, ⟨2, true⟩], none),
      ([⟨1, false⟩, ⟨2, false⟩], none)] >>= fun s =>
        (s.solve Budget.unlimited LowestFirst.mk).map fun o =>
          (s.status.infeasible?, o.verdict.isUnsatisfiable)) = .ok (none, true) := by
    cbv
  obtain ⟨s, load, answers⟩ := Yields.exists_of_bind answers
  obtain ⟨o, e, answers⟩ := Yields.of_map answers
  simp only [Prod.mk.injEq] at answers
  obtain ⟨feasible, unsatisfiable⟩ := answers
  obtain ⟨h, run, -⟩ := Reached.of_new load
  obtain ⟨w, answer⟩ := Verdict.isUnsatisfiable_iff.1 unsatisfiable
  have fine : ¬ Failed h := by
    rcases run.open_or_refuted with ⟨fine, -⟩ | ⟨-, w, ⟨c, infeasible, -⟩, -⟩
    · exact fine
    · cases feasible.symm.trans infeasible
  have mem : Event.answered (.unsatisfiable w) ∈ h ++ [.answered o.verdict] := by simp [answer]
  have empty := (infeasibility_exact_and_final run).1 fine [] none (List.forall_mem_nil _)
  obtain ⟨w', only, ⟨-, -, requirements⟩, stays⟩ :=
    (infeasibility_exact_and_final (run.solve e)).2 (.of_answered mem)
  obtain rfl := only w mem
  exact ⟨h, s, o, w, run, fine, empty.mono fun x hx => hx.2.2 (by simp), e, answer, requirements,
    stays⟩

end Histories

end ClauseLearning
