/-
  Every learned clause is new.

  Model. A clause over some variables has each of them with one sign or the other or not at all
  (`signOf`). With `n` variables there are `3 ^ n` clauses, and all but one have a literal. The
  solver counts the conflicts it meets; those above the root are learned from, and a run with a
  conflict at the root ends there. What a run has learned by a moment are the clauses of
  `Solver.learned`, from the first one to the last (`Solver.Anew`).

  Rule. `learned_new`: when a learned clause is to be recorded, no clause that is kept has literals
  of that clause only. So no two learned clauses have the same literals, and there are fewer
  conflicts above the root than clauses over the variables of the problem. Behind it is that a
  clause all of whose literals are false has two of the current level: it is not true, so its
  watched literals were not false before the level began (`Watchful.not_subset`).
-/
import Mathlib
import ClauseLearning.Proofs.Solver.Conflicts
import ClauseLearning.Proofs.Solver.Preserved

namespace ClauseLearning

/-! ## How many clauses there are -/

/-- The sign with which a clause has the variable, if it has. -/
def signOf (ls : List Lit) (v : Var) : Option Bool :=
  if ⟨v, true⟩ ∈ ls then some true else if ⟨v, false⟩ ∈ ls then some false else none

/-- The signs of a list of variables. -/
def signs (vs : List Var) (ls : List Lit) (i : Fin vs.length) : Option Bool := signOf ls vs[i]

/-- The literals are those of a clause over some of the variables, with at least one. -/
structure IsClause (vs : List Var) (ls : List Lit) : Prop where
  /-- They are over different variables. -/
  distinct : (ls.map Lit.var).Nodup
  /-- There is one. -/
  inhabited : ls ≠ []
  /-- The variables are among the given ones. -/
  known : ∀ l ∈ ls, l.var ∈ vs

section Signs

variable {vs : List Var} {ls : List Lit} {l : Lit} {v : Var} {b : Bool}

theorem mem_of_signOf (h : signOf ls v = some b) : ⟨v, b⟩ ∈ ls := by
  unfold signOf at h
  split at h
  · cases h
    assumption
  · split at h
    · cases h
      assumption
    · cases h

theorem IsClause.signOf_eq (h : IsClause vs ls) (hl : l ∈ ls) :
    signOf ls l.var = some l.positive := by
  obtain ⟨v, positive⟩ := l
  cases positive with
  | true => exact if_pos hl
  | false =>
    have absent : (⟨v, true⟩ : Lit) ∉ ls := fun other => by
      cases List.inj_on_of_nodup_map h.distinct hl other rfl
    exact (if_neg absent).trans (if_pos hl)

/-- A literal of a clause is found among the signs. -/
theorem IsClause.exists_signs (h : IsClause vs ls) (hl : l ∈ ls) :
    ∃ i : Fin vs.length, vs[i] = l.var ∧ signs vs ls i = some l.positive := by
  obtain ⟨i, hi, e⟩ := List.mem_iff_getElem.1 (h.known l hl)
  refine ⟨⟨i, hi⟩, e, ?_⟩
  rw [← h.signOf_eq hl, ← e]
  rfl

/-- Where no clause has literals of a later one only, there are fewer of them than there are
    clauses. -/
theorem length_lt_of_pairwise {cs : List (List Lit)} (new : cs.Pairwise fun a b => ¬ a ⊆ b)
    (clauses : ∀ c ∈ cs, IsClause vs c) : cs.length < 3 ^ vs.length := by
  have different : (cs.map (signs vs)).Nodup := by
    refine List.pairwise_map.2 (new.imp_of_mem fun {a b} ha _ new same => new fun l hl => ?_)
    obtain ⟨i, e, sign⟩ := (clauses a ha).exists_signs hl
    rw [same] at sign
    have mem := mem_of_signOf sign
    rwa [show vs[i] = l.var from e] at mem
  have none : (fun _ => Option.none) ∉ cs.map (signs vs) := by
    intro mem
    obtain ⟨c, hc, e⟩ := List.mem_map.1 mem
    obtain ⟨l, hl⟩ := List.exists_mem_of_ne_nil _ (clauses c hc).inhabited
    obtain ⟨i, -, sign⟩ := (clauses c hc).exists_signs hl
    rw [e] at sign
    cases sign
  have bound := (List.nodup_cons.2 ⟨none, different⟩).length_le_card
  rw [List.length_cons, List.length_map, Fintype.card_fun, Fintype.card_fin] at bound
  exact bound

end Signs

/-! ## What is learned from a conflict -/

namespace Propagation

/-- A clause whose literals are all literals of the learned clause would have two of the current
    level. -/
theorem Watchful.not_subset {p : Propagation} {n : Nat} {d : Learned} {r : ClauseRef} {e : Clause}
    (h : p.Watchful none n) (current : ∀ m ∈ p.trail.limits, m ≤ n) (a : p.Asserts d)
    (he : p.clauses.get? r = some e) : ¬ e.literals ⊆ d.literals := by
  intro sub
  have false : ∀ l ∈ e.literals, -l ∈ p.trail.literals := fun l hl => a.false l (sub hl)
  have asserting : ∀ l ∈ e.literals, p.clauses.Watches none r l → l = d.asserting := by
    intro l hl watched
    rcases h.covers_or_onLevel current watched (false l hl) with ⟨e', he', u, hu, true, -⟩ | late
    · cases he.symm.trans he'
      exact absurd (false u hu) (h.trail.neg_not_mem true)
    · rcases List.mem_append.1 (sub hl) with other | last
      · have low : p.trail.levelOf l.var < p.trail.level := (a.earlier l other).2
        exact absurd late.2 (Nat.ne_of_lt low)
      · exact List.mem_singleton.1 last
  match e' : e.literals with
  | [] =>
    obtain ⟨l, alone, -⟩ := h.rooted r e he (by simp) (by simp [Clause.length, e'])
    cases e'.symm.trans alone
  | [x] =>
    obtain ⟨l, alone, true, -⟩ := h.rooted r e he (by simp) (by simp [Clause.length, e'])
    exact h.trail.neg_not_mem true (false l (by simp [alone]))
  | x :: y :: rest =>
    have distinct := h.nodup r e he
    rw [e', List.nodup_cons, List.mem_cons, not_or] at distinct
    have watched : ∀ l, l = x ∨ l = y → l = d.asserting := fun l which =>
      asserting l (by rcases which with rfl | rfl <;> simp [e'])
        ((ClauseStore.watches_iff he e').2 ⟨by simp, which⟩)
    exact distinct.1.1 ((watched x (.inl rfl)).trans (watched y (.inr rfl)).symm)

end Propagation

/-! ## What a run has learned -/

/-- How many conflicts there are that nothing was learned from yet. -/
def Status.pending : Status → Nat
  | .conflicting _ => 1
  | _ => 0

namespace Solver

variable {s s' : Solver} {d : Learned}

/-- The learned clauses, each new when it was learned. -/
structure Anew (s : Solver) : Prop where
  /-- No clause has literals of a later one only. -/
  new : s.learned.toList.Pairwise fun r q => ∀ c e, s.clauses.get? r = some c →
    s.clauses.get? q = some e → ¬ c.literals ⊆ e.literals
  /-- They have literals, over different variables. -/
  clause : ∀ r ∈ s.learned, ∀ c, s.clauses.get? r = some c →
    (c.literals.map Lit.var).Nodup ∧ c.literals ≠ []

/-- The conflicts counted are those that were learned from, and one that is not yet. -/
def Tallied (s : Solver) : Moment → Prop
  | .resting => s.status.infeasible? = none → s.statistics.conflicts = s.learned.size
  | .searching => s.statistics.conflicts = s.learned.size
  | .propagated => s.statistics.conflicts = s.learned.size + s.status.pending
  | .learning _ => s.statistics.conflicts = s.learned.size + 1

/-- Nothing is learned, and no clause is lost. -/
theorem Anew.carry (h : s.Anew) (sound : s.Sound) (learned : s'.learned = s.learned)
    (clauses : s'.clauses.Includes s.clauses) : s'.Anew := by
  -- the learned clauses are there as before, but for the order of their literals
  have origin : ∀ r ∈ s.learned, ∀ c', s'.clauses.get? r = some c' →
      ∃ c, s.clauses.get? r = some c ∧ c'.Rearranges c := by
    intro r hr c' hc'
    obtain ⟨c, hc, -⟩ := sound.learned r hr
    obtain ⟨c'', hc'', same⟩ := clauses r c hc
    cases hc'.symm.trans hc''
    exact ⟨c, hc, same⟩
  refine ⟨?_, fun r hr c' hc' => ?_⟩
  · rw [learned]
    refine h.new.imp_of_mem fun {r q} hr hq new c' e' hc' he' sub => ?_
    obtain ⟨c, hc, same⟩ := origin r (Array.mem_toList_iff.1 hr) c' hc'
    obtain ⟨e, he, same'⟩ := origin q (Array.mem_toList_iff.1 hq) e' he'
    refine new c e hc he fun l hl => same'.mem_iff.1 (sub (same.mem_iff.2 hl))
  · rw [learned] at hr
    obtain ⟨c, hc, same⟩ := origin r hr c' hc'
    obtain ⟨distinct, inhabited⟩ := h.clause r hr c hc
    refine ⟨(same.literals.map Lit.var).nodup_iff.2 distinct, fun none => inhabited ?_⟩
    exact List.perm_nil.1 (none ▸ same.literals).symm

/-- A clause is learned that no clause is a part of. -/
theorem Anew.learn (h : s.Anew) (sound : s.Sound) (nodup : d.literals.Nodup)
    (distinct : (d.literals.map Lit.var).Nodup)
    (new : ∀ r e, s.clauses.get? r = some e → ¬ e.literals ⊆ d.literals)
    (learned : s'.learned = s.learned.push s.clauses.size)
    (clauses : s'.clauses = (s.clauses.add (learnedClause s.trail d)).2) : s'.Anew := by
  have perm : (learnedClause s.trail d).literals.Perm d.literals := by
    rw [literals_learnedClause _ nodup]
    exact watchOrder_perm s.trail d
  have old : ∀ r ∈ s.learned, ∀ c, s'.clauses.get? r = some c → s.clauses.get? r = some c := by
    intro r hr c hc
    rw [clauses] at hc
    obtain ⟨e, he, -⟩ := sound.learned r hr
    refine (ClauseStore.get?_of_add hc).resolve_left fun ⟨last, _⟩ => ?_
    exact Nat.ne_of_lt (ClauseStore.lt_size_of_get? he) last
  have last : ∀ c, s'.clauses.get? s.clauses.size = some c → c = learnedClause s.trail d := by
    intro c hc
    rw [clauses, ClauseStore.get?_add_self] at hc
    exact (Option.some.inj hc).symm
  refine ⟨?_, fun r hr c hc => ?_⟩
  · rw [learned, Array.toList_push, List.pairwise_append]
    refine ⟨h.new.imp_of_mem fun {r q} hr hq new c e hc he => ?_, List.pairwise_singleton ..,
      fun r hr q hq c e hc he sub => ?_⟩
    · exact new c e (old r (Array.mem_toList_iff.1 hr) c hc)
        (old q (Array.mem_toList_iff.1 hq) e he)
    · rw [List.mem_singleton.1 hq] at he
      rw [last e he] at sub
      exact new r c (old r (Array.mem_toList_iff.1 hr) c hc) fun l hl => perm.mem_iff.1 (sub hl)
  · rw [learned, Array.mem_push] at hr
    rcases hr with hr | rfl
    · exact h.clause r hr c (old r hr c hc)
    · rw [last c hc]
      refine ⟨(perm.map Lit.var).nodup_iff.2 distinct, fun none => ?_⟩
      have : d.asserting ∈ (learnedClause s.trail d).literals :=
        perm.mem_iff.2 (List.mem_append_right _ (.head _))
      rw [none] at this
      cases this

theorem length_learnedClauses (sound : s.Sound) : s.learnedClauses.length = s.learned.size := by
  rw [learnedClauses, List.filterMap_length_eq_length.2 fun r hr => ?_, Array.length_toList]
  obtain ⟨c, hc, -⟩ := sound.learned r (Array.mem_toList_iff.1 hr)
  rw [hc]
  rfl

theorem Anew.pairwise (h : s.Anew) :
    s.learnedClauses.Pairwise fun earlier later => ¬ earlier ⊆ later := by
  refine List.pairwise_filterMap.2 (h.new.imp fun {r q} new c hc e he => ?_)
  obtain ⟨c', stored, rfl⟩ := Option.map_eq_some_iff.1 hc
  obtain ⟨e', stored', rfl⟩ := Option.map_eq_some_iff.1 he
  exact new c' e' stored stored'

/-- The learned clauses are over the variables of the problem. -/
theorem Anew.isClause (h : s.Anew) (sound : s.Sound) {vs : List Var}
    (known : ∀ v, s.trail.Knows v → v ∈ vs) : ∀ ls ∈ s.learnedClauses, IsClause vs ls := by
  intro ls hls
  obtain ⟨r, hr, c, hc, rfl⟩ := mem_learnedClauses.1 hls
  obtain ⟨distinct, inhabited⟩ := h.clause r hr c hc
  exact ⟨distinct, inhabited, fun l hl => known _ (sound.grounded.known r c hc l hl)⟩

/-! ## One operation -/

/-- Propagation counts the conflict it meets. -/
theorem learned_of_propagate (h : s.Searching) (e : s.propagate = .ok s') :
    s'.learned = s.learned ∧
      s'.statistics.conflicts = s.statistics.conflicts + s'.status.pending := by
  have searching := h.status
  obtain ⟨status, p, learned, statistics, skip⟩ := s
  obtain rfl : status = .searching := searching
  obtain ⟨⟨conflict, p'⟩, -, e⟩ := Yields.exists_of_bind e
  obtain ⟨grown, -, e⟩ := Yields.exists_of_bind e
  cases conflict with
  | none =>
    cases e
    exact ⟨rfl, rfl⟩
  | some c =>
    obtain ⟨status', meets, e⟩ := Yields.exists_of_bind e
    cases meets
    cases e
    exact ⟨rfl, rfl⟩

theorem learned_of_decideOn {v : Var} {polarity : Bool} (e : s.decideOn v polarity = .ok s') :
    s'.learned = s.learned ∧ s'.statistics.conflicts = s.statistics.conflicts := by
  obtain ⟨p, -, rfl⟩ := exists_of_decideOn e
  exact ⟨rfl, rfl⟩

end Solver

section Runs

variable {skip : Bool} {g : Log} {m : Moment} {s s' : Solver} {c : ClauseRef} {d : Learned}

open Solver Propagation

/-- A clause is learned from a conflict above the root. -/
theorem Passes.of_learning (run : Passes skip g (.learning d) s) : ∃ s₀ c,
    Passes skip g .propagated s₀ ∧ s₀.status = .conflicting c ∧ s₀.trail.atRoot = false ∧
      s₀.propagation.firstUip c = .ok d ∧ s₀.clauses = s.clauses := by
  cases run with
  | @backjump g s₀ s₁ c d st before conflict above analysis counts e =>
    obtain ⟨⟨s', after⟩, -⟩ := before.fits_logged
    obtain ⟨-, clauses⟩ := after.learning st conflict above analysis e
    exact ⟨s₀, c, before, conflict, above, analysis, clauses.symm⟩

/-- No clause is a part of what is learned. -/
theorem Passes.new_of_conflict (run : Passes skip g .propagated s)
    (conflict : s.status = .conflicting c) (above : s.trail.atRoot = false)
    (analysis : s.propagation.firstUip c = .ok d) :
    ∀ r e, s.clauses.get? r = some e → ¬ e.literals ⊆ d.literals := by
  obtain ⟨conflicts, -, n, current, watchful⟩ := run.watchful conflict above
  have asserts := (firstUip_yields watchful.toGrounded conflicts).of_ok analysis
  exact fun r e he => watchful.not_subset current asserts he

/-- In every moment of a run the learned clauses are new. -/
theorem Passes.anew (run : Passes skip g m s) : s.Anew := by
  induction run with
  | new => exact ⟨.nil, by simp [Solver.new]⟩
  | @register g s s' v before e ih =>
    obtain ⟨idle, -⟩ := before.fits_logged
    obtain ⟨-, ⟨p', rfl, w⟩, -⟩ := (register_yields idle (lt_of_register e)).of_ok e
    have clauses : p'.clauses.Includes s.clauses := w.clauses ▸ .refl _
    exact ih.carry idle.toSound rfl clauses
  | add before e ih =>
    obtain ⟨idle, -⟩ := before.fits_logged
    obtain ⟨learned, -, clauses, -⟩ := learned_of_add idle e
    exact ih.carry idle.toSound learned clauses
  | begin before _ ih =>
    obtain ⟨idle, -⟩ := before.fits_logged
    exact ih.carry idle.toSound rfl (.refl _)
  | propagate before e ih =>
    obtain ⟨searching, -⟩ := before.fits_logged
    have clauses := (rearranges_of_propagate searching e).clauses
    exact ih.carry searching.toSound (learned_of_propagate searching e).1 clauses
  | @decide g s s' v polarity consumed before _ _ e ih =>
    obtain ⟨⟨s₀, after⟩, -⟩ := before.fits_logged
    have clauses := (clauses_of_decideOn e).trans (s.clauses_noteConsumed consumed)
    exact ih.carry after.sound (learned_of_decideOn e).1 (clauses ▸ .refl _)
  | @backjump g s s' c d st before conflict above analysis _ e ih =>
    obtain ⟨⟨s₀, after⟩, -⟩ := before.fits_logged
    obtain ⟨-, clauses⟩ := after.learning st conflict above analysis e
    have rearranges : s'.clauses.Includes s.clauses := clauses ▸ .refl _
    exact ih.carry after.sound (learned_of_cancelUntil e).1 rearranges
  | learn before e _ ih =>
    obtain ⟨learning, -⟩ := before.fits_logged
    obtain ⟨s₀, c, run, conflict, above, analysis, clauses⟩ := before.of_learning
    obtain ⟨conflicts, -, n, -, watchful⟩ := run.watchful conflict above
    have new := run.new_of_conflict conflict above analysis
    have learns := (learns_of_conflicts watchful.toGrounded conflicts).of_ok analysis
    obtain ⟨p', recorded, rfl⟩ := (record_yields learning.learnable).of_ok e
    exact ih.learn learning.toSound learning.learnable.nodup learns.distinct (clauses ▸ new) rfl
      recorded.clauses
  | refute before _ _ e ih =>
    obtain ⟨⟨s₀, after⟩, -⟩ := before.fits_logged
    exact ih.carry after.sound rfl (.refl _)
  | succeed before open' _ e left ih =>
    obtain ⟨⟨s₀, after⟩, -⟩ := before.fits_logged
    have searching := after.searching open'
    rw [searching.status] at e
    cases e
    obtain ⟨learned, clauses, -⟩ := learned_of_leave searching rfl left
    exact ih.carry after.sound learned (clauses ▸ .refl _)
  | stop before e left ih =>
    obtain ⟨searching, -⟩ := before.fits_logged
    rw [searching.status] at e
    cases e
    obtain ⟨learned, clauses, -⟩ := learned_of_leave searching rfl left
    exact ih.carry searching.toSound learned (clauses ▸ .refl _)

/-- In every moment of a run the conflicts are tallied. -/
theorem Passes.tallied (run : Passes skip g m s) : s.Tallied m := by
  induction run with
  | new => exact fun _ => rfl
  | @register g s s' v before e ih =>
    obtain ⟨idle, -⟩ := before.fits_logged
    obtain ⟨-, ⟨p', rfl, -⟩, -⟩ := (register_yields idle (lt_of_register e)).of_ok e
    exact ih
  | add before e ih =>
    obtain ⟨idle, -⟩ := before.fits_logged
    obtain ⟨learned, statistics, -, feasible⟩ := learned_of_add idle e
    intro open'
    rw [learned, statistics]
    exact ih (feasible open')
  | @begin g s status before e ih =>
    refine ih ?_
    cases hs : s.status <;> rw [hs] at e <;> cases e <;> rfl
  | @propagate g s s' before e ih =>
    obtain ⟨searching, -⟩ := before.fits_logged
    obtain ⟨learned, conflicts⟩ := learned_of_propagate searching e
    have tallied : s.statistics.conflicts = s.learned.size := ih
    rwa [← learned, ← Nat.add_right_cancel_iff (n := s'.status.pending), ← conflicts] at tallied
  | @decide g s s' v polarity consumed before open' _ e ih =>
    obtain ⟨⟨s₀, after⟩, -⟩ := before.fits_logged
    obtain ⟨learned, conflicts⟩ := learned_of_decideOn e
    have tallied : s.statistics.conflicts = s.learned.size + s.status.pending := ih
    rw [(after.searching open').status] at tallied
    exact conflicts.trans (tallied.trans (congrArg Array.size learned.symm))
  | @backjump g s s' c d st before conflict above analysis counts e ih =>
    have tallied : s.statistics.conflicts = s.learned.size + s.status.pending := ih
    rw [conflict, ← (counts_of_countLearned counts).2, ← (learned_of_cancelUntil e).1] at tallied
    exact tallied
  | @learn g s s' d status before e starts ih =>
    obtain ⟨learning, -⟩ := before.fits_logged
    obtain ⟨p', recorded, rfl⟩ := (record_yields learning.learnable).of_ok e
    change s.statistics.conflicts = (s.learned.push _).size
    rw [Array.size_push]
    exact ih
  | refute before conflict _ e _ =>
    rw [conflict] at e
    cases e
    exact fun open' => by cases open'
  | @succeed g s s' status before open' _ e left ih =>
    obtain ⟨⟨s₀, after⟩, -⟩ := before.fits_logged
    have searching := after.searching open'
    have tallied : s.statistics.conflicts = s.learned.size + s.status.pending := ih
    rw [searching.status] at e tallied
    cases e
    obtain ⟨learned, -, statistics⟩ := learned_of_leave searching rfl left
    have conflicts := congrArg Statistics.conflicts statistics
    exact fun _ => conflicts.trans (tallied.trans (congrArg Array.size learned.symm))
  | @stop g s s' status before e left ih =>
    obtain ⟨searching, -⟩ := before.fits_logged
    rw [searching.status] at e
    cases e
    obtain ⟨learned, -, statistics⟩ := learned_of_leave searching rfl left
    have conflicts := congrArg Statistics.conflicts statistics
    have tallied : s.statistics.conflicts = s.learned.size := ih
    exact fun _ => conflicts.trans (tallied.trans (congrArg Array.size learned.symm))

theorem Passes.sound (run : Passes skip g m s) : s.Sound := by
  obtain ⟨fits, -⟩ := run.fits_logged
  cases m with
  | resting => exact Idle.toSound fits
  | searching => exact Searching.toSound fits
  | propagated =>
    obtain ⟨s₀, after⟩ := fits
    exact after.sound
  | learning d => exact Learning.toSound fits

/-- Fewer clauses are learned than there are over the variables of the problem. -/
theorem Passes.size_learned_lt (run : Passes skip g m s) {vs : List Var}
    (known : ∀ v, s.trail.Knows v → v ∈ vs) : s.learned.size < 3 ^ vs.length := by
  have sound := run.sound
  rw [← length_learnedClauses sound]
  exact length_lt_of_pairwise run.anew.pairwise (run.anew.isClause sound known)

/-- Every learned clause is new. When a clause is to be recorded for what was learned, no clause
    that is kept has literals of that clause only. So no learned clause has only literals of a later
    one, and there are fewer of them than clauses over the variables of the problem. At a conflict
    above the root all conflicts before were learned from, and with this one there are still fewer
    conflicts than clauses. -/
theorem learned_new (run : Passes skip g m s) :
    (∀ d, m = .learning d → ∀ r e, s.clauses.get? r = some e → ¬ e.literals ⊆ d.literals) ∧
    s.learnedClauses.Pairwise (fun earlier later => ¬ earlier ⊆ later) ∧
    s.learnedClauses.length < 3 ^ s.assignment.numVariables ∧
    ∀ c, m = .propagated → s.status = .conflicting c → s.trail.atRoot = false →
      s.statistics.conflicts = s.learnedClauses.length + 1 ∧
        s.statistics.conflicts < 3 ^ s.assignment.numVariables := by
  have anew := run.anew
  have sound := run.sound
  obtain ⟨vs, number, known⟩ := sound.grounded.trail.counted.exists_variables
  have pairwise := anew.pairwise
  have clauses := anew.isClause sound known
  have number : vs.length = s.assignment.numVariables := number
  rw [← number]
  refine ⟨fun d learning => ?_, pairwise, length_lt_of_pairwise pairwise clauses,
    fun c propagated conflict above => ?_⟩
  · subst learning
    obtain ⟨s₀, c, before, conflict, above, analysis, same⟩ := run.of_learning
    exact same ▸ before.new_of_conflict conflict above analysis
  · subst propagated
    -- what will be learned from this conflict is new too
    obtain ⟨conflicts, -⟩ := run.watchful conflict above
    obtain ⟨d, analysis, asserts⟩ := firstUip_yields sound.grounded conflicts
    have learns := (learns_of_conflicts sound.grounded conflicts).of_ok analysis
    have new := run.new_of_conflict conflict above analysis
    have count : s.statistics.conflicts = s.learnedClauses.length + 1 := by
      have : s.statistics.conflicts = s.learned.size + s.status.pending := run.tallied
      rwa [conflict, ← length_learnedClauses sound] at this
    refine ⟨count, ?_⟩
    have more : (s.learnedClauses ++ [d.literals]).length < 3 ^ vs.length := by
      refine length_lt_of_pairwise ?_ fun c hc => ?_
      · refine List.pairwise_append.2 ⟨pairwise, List.pairwise_singleton .., fun c hc e he => ?_⟩
        obtain ⟨r, -, f, hf, rfl⟩ := mem_learnedClauses.1 hc
        exact List.mem_singleton.1 he ▸ new r f hf
      · rcases List.mem_append.1 hc with old | last
        · exact clauses c old
        · obtain rfl := List.mem_singleton.1 last
          refine ⟨learns.distinct, by simp [Learned.literals], fun l hl => known _ ?_⟩
          exact sound.grounded.trail.knows_of_mem (l := -l) (asserts.false l hl)
    rwa [List.length_append, List.length_singleton, ← count] at more

/-- 1 and 2 are decided on, -2 is learned, and 1 is decided on again: at the second conflict there
    are two of 26 clauses, and what is learned there is another one than -2. -/
theorem learned_new_second_conflict : ∃ g s s', Passes true g .propagated s ∧
    s.status = .conflicting 3 ∧ s.statistics.conflicts = 2 ∧ s.assignment.numVariables = 3 ∧
    s.statistics.conflicts < 3 ^ s.assignment.numVariables ∧
    Passes true g (.learning ⟨[⟨2, true⟩], ⟨1, false⟩, 0, [3, 2]⟩) s' ∧
    s'.learnedClauses = [[⟨2, false⟩]] ∧
    ∀ r e, s'.clauses.get? r = some e → ¬ e.literals ⊆ [⟨2, true⟩, ⟨1, false⟩] := by
  have rounds : ((Solver.new true).addAll [([⟨2, false⟩, ⟨3, true⟩], none),
      ([⟨2, false⟩, ⟨3, false⟩], none), ([⟨1, false⟩, ⟨2, true⟩, ⟨3, true⟩], none),
      ([⟨1, false⟩, ⟨2, true⟩, ⟨3, false⟩], none)] >>= fun s =>
        (Round.repeatPow Search.round 2
          (Search.begun s Budget.unlimited LowestFirst.mk)).map fun r =>
            (s.status.start.toOption, r.state?.map fun q => q.solver.propagate.map fun s =>
              ((s.status, s.trail.atRoot), (s.statistics.conflicts, s.assignment.numVariables),
                s.propagation.firstUip 3,
                (countLearned s.statistics s.level ⟨[⟨2, true⟩], ⟨1, false⟩, 0, [3, 2]⟩).map
                  fun _ => (),
                (s.cancelUntil 0).map learnedClauses))) =
          .ok (some .searching, some (.ok ((.conflicting 3, false), (2, 3),
            .ok ⟨[⟨2, true⟩], ⟨1, false⟩, 0, [3, 2]⟩, .ok (), .ok [[⟨2, false⟩]]))) := by
    cbv
  obtain ⟨g, s, run, found⟩ := Passes.exists_of_rounds
    (fun s load => (Reached.of_new load).imp fun _ run => run.1) rounds
  simp only [Prod.mk.injEq] at found
  obtain ⟨⟨conflict, above⟩, ⟨conflicts, number⟩, analysis, counts, back⟩ := found
  obtain ⟨st, counts, -⟩ := Yields.of_map counts
  obtain ⟨s', back, learned⟩ := Yields.of_map back
  have learning := run.backjump conflict above analysis counts back
  obtain ⟨-, -, -, fewer⟩ := learned_new run
  obtain ⟨new, -⟩ := learned_new learning
  exact ⟨g, s, _, run, conflict, conflicts, number, (fewer 3 rfl conflict above).2, learning,
    learned, new _ rfl⟩

end Runs

end ClauseLearning
