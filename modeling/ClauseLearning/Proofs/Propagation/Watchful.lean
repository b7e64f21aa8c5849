/-
  The watch invariant.

  Model. A false watched literal is covered when another literal of its clause is true and was so
  on the same level or an earlier one: then going back to a level that leaves the first one false
  leaves the second one true. Up to a place `n` of the trail a state is watchful when the lists
  index the clauses, the watched literals that are false in front of `n` are covered, and the
  literals of clauses that are too short to be watched are true at the root.

  Rule. `Watchful.satisfied`: where all variables have a value and all of the trail was
  propagated, every clause has a true literal. `Watchful.cancelUntil`: going back asks nothing of
  the watch lists.
-/
import ClauseLearning.Proofs.Propagation.Grounded

namespace ClauseLearning.Propagation

variable {p p' p'' : Propagation} {bare : Option ClauseRef} {r : ClauseRef} {l : Lit} {n : Nat}
  {exempt exempt' : ClauseRef → Lit → Prop}

/-- A literal of the clause `r` is true, and has been since the level of the false literal `l`
    or before. -/
def Covers (p : Propagation) (r : ClauseRef) (l : Lit) : Prop :=
  ∃ c, p.clauses.get? r = some c ∧
    ∃ u ∈ c.literals, u ∈ p.trail.literals ∧ p.trail.levelOf u.var ≤ p.trail.levelOf l.var

theorem Covers.mono (h : p.Covers r l) (hl : -l ∈ p.trail.literals)
    (clauses : p'.clauses.Includes p.clauses) (trail : p.trail.Keeps p'.trail) :
    p'.Covers r l := by
  obtain ⟨c, hc, u, hu, true, le⟩ := h
  obtain ⟨c', hc', e⟩ := clauses r c hc
  obtain ⟨stays, level⟩ := trail u true
  have levelL : p'.trail.levelOf (-l).var = p.trail.levelOf l.var := (trail _ hl).2
  refine ⟨c', hc', u, e.mem_iff.2 hu, stays, ?_⟩
  rw [level]
  exact levelL ▸ le

/-- The watched literals that are false in front of the place `n` are covered, apart from the
    exempt ones. -/
def Guarded (p : Propagation) (bare : Option ClauseRef) (n : Nat)
    (exempt : ClauseRef → Lit → Prop) : Prop :=
  ∀ r l, p.clauses.Watches bare r l → ¬ exempt r l → -l ∈ p.trail.literals.take n →
    p.Covers r l

/-- Further on the guard stays, when what is newly watched or no more exempt is not false or is
    covered. -/
theorem Guarded.continues (h : p.Guarded bare n exempt) (hn : n ≤ p.trail.length)
    (on : p.Continues p')
    (watched : ∀ r l, p'.clauses.Watches bare r l → ¬ exempt' r l → -l ∈ p'.trail.literals →
      p.clauses.Watches bare r l ∧ ¬ exempt r l ∨ p'.Covers r l) :
    p'.Guarded bare n exempt' := by
  intro r l hw he hl
  rcases watched r l hw he (List.mem_of_mem_take hl) with ⟨old, he'⟩ | covers
  · rw [on.trail.take hn] at hl
    exact (h r l old he' hl).mono (List.mem_of_mem_take hl) on.clauses.clauses
      on.trail.keeps
  · exact covers

/-- Clauses that are too short to be watched are true at the root. -/
def Rooted (p : Propagation) (bare : Option ClauseRef) : Prop :=
  ∀ r c, p.clauses.get? r = some c → bare ≠ some r → c.length < 2 →
    ∃ l, c.literals = [l] ∧ l ∈ p.trail.literals ∧ p.trail.levelOf l.var = 0

theorem Rooted.continues (h : p.Rooted bare) (on : p.Continues p') : p'.Rooted bare := by
  intro r c' hc' hr short
  obtain ⟨c, hc, e⟩ := on.clauses.origin hc'
  obtain ⟨l, hl, true, root⟩ := h r c hc hr (by rwa [Clause.length, ← e.literals.length_eq])
  refine ⟨l, List.perm_singleton.1 (hl ▸ e.literals), on.trail.mem true, ?_⟩
  rw [on.trail.levelOf true, root]

/-- A grounded state whose watch lists are right, where `n` literals were propagated. -/
structure Watchful (p : Propagation) (bare : Option ClauseRef) (n : Nat) : Prop
    extends Grounded p where
  /-- The lists index the clauses. -/
  indexes : p.clauses.Indexes bare p.watchers
  /-- The false watched literals are covered. -/
  guarded : p.Guarded bare n fun _ _ => False
  /-- The clauses without watchers are true. -/
  rooted : p.Rooted bare

theorem watchful_empty : empty.Watchful none 0 where
  toGrounded := grounded_empty
  indexes := by
    refine ⟨fun l => ?_, fun l r => ?_, fun l w hw => ?_⟩
    · simp [watchers, empty]
    · constructor
      · intro h
        simp [watchers, empty] at h
      · rintro ⟨-, c, _, _, _, hc, _⟩
        simp [empty, ClauseStore.empty, ClauseStore.get?] at hc
    · simp [watchers, empty] at hw
  guarded r l _ _ hl := by simp at hl
  rooted r c hc := by simp [empty, ClauseStore.empty, ClauseStore.get?] at hc

namespace Watchful

/-- When everything was propagated, all false watched literals are covered. -/
theorem covers (h : p.Watchful none p.trail.length) (watched : p.clauses.Watches none r l)
    (false : -l ∈ p.trail.literals) : p.Covers r l := by
  refine h.guarded r l watched id ?_
  rwa [← Trail.length_literals, List.take_length]

/-- When everything was propagated, a clause without a true literal has two that are not false. -/
theorem satisfied_or_open (h : p.Watchful none p.trail.length) {c : Clause}
    (hc : p.clauses.get? r = some c) : (∃ l ∈ c.literals, l ∈ p.trail.literals) ∨
      ∃ a ∈ c.literals, ∃ b ∈ c.literals,
        a ≠ b ∧ -a ∉ p.trail.literals ∧ -b ∉ p.trail.literals := by
  match e : c.literals with
  | [] =>
    obtain ⟨l, alone, -⟩ := h.rooted r c hc (by simp) (by simp [Clause.length, e])
    cases e.symm.trans alone
  | [a] =>
    obtain ⟨l, alone, true, -⟩ := h.rooted r c hc (by simp) (by simp [Clause.length, e])
    cases e.symm.trans alone
    exact .inl ⟨a, by simp, true⟩
  | a :: b :: rest =>
    have distinct := h.nodup r c hc
    rw [e, List.nodup_cons, List.mem_cons, not_or] at distinct
    have covered : ∀ l, l = a ∨ l = b → -l ∈ p.trail.literals →
        ∃ u ∈ c.literals, u ∈ p.trail.literals := by
      intro l which false
      obtain ⟨d, hd, u, hu, true, -⟩ :=
        h.covers ((ClauseStore.watches_iff hc e).2 ⟨by simp, which⟩) false
      cases hc.symm.trans hd
      exact ⟨u, hu, true⟩
    rw [← e]
    by_cases ha : -a ∈ p.trail.literals
    · exact .inl (covered a (.inl rfl) ha)
    · by_cases hb : -b ∈ p.trail.literals
      · exact .inl (covered b (.inr rfl) hb)
      · exact .inr ⟨a, by simp [e], b, by simp [e], distinct.1.1, ha, hb⟩

/-- When everything was propagated and all variables have values, every clause is satisfied. -/
theorem satisfied (h : p.Watchful none p.trail.length)
    (complete : ∀ v, p.trail.assignment.isUnassigned v = false) {c : Clause}
    (hc : p.clauses.get? r = some c) : ∃ l ∈ c.literals, l ∈ p.trail.literals := by
  rcases h.satisfied_or_open hc with true | ⟨a, ha, -, -, -, notFalse, -⟩
  · exact true
  · have assigned := h.trail.mem_or_neg_mem (h.known r c hc a ha) (complete _)
    exact ⟨a, ha, assigned.resolve_right notFalse⟩

/-- A literal comes to the end of the trail, maybe on a new level. -/
theorem append (h : p.Watchful bare n) {trail : Trail}
    (grounded : Grounded { p with trail := trail }) (hn : n ≤ p.trail.length)
    (literals : trail.literals = p.trail.literals ++ [l])
    (keeps : p.trail.Keeps trail) : Watchful { p with trail := trail } bare n where
  toGrounded := grounded
  indexes := h.indexes
  guarded r k hw he hk := by
    change -k ∈ trail.literals.take n at hk
    rw [literals, List.take_append_of_le_length (by rwa [Trail.length_literals])] at hk
    exact (h.guarded r k hw he hk).mono (List.mem_of_mem_take hk) (.refl _) keeps
  rooted r c hc hr short := by
    obtain ⟨k, e, true, root⟩ := h.rooted r c hc hr short
    exact ⟨k, e, (keeps k true).1, (keeps k true).2.trans root⟩

/-- Going back to a level, no further than what was propagated reaches. -/
theorem cancelUntil (h : p.Watchful bare n) {k : Nat} (hk : k ≤ p.trail.level)
    (reach : min p.next (p.trail.startOf k) ≤ n) :
    Yields (p.cancelUntil k) fun p' => p'.Watchful bare p'.next ∧
      p.trail.Backtracks p'.trail k ∧ p'.clauses = p.clauses ∧ p'.watches = p.watches ∧
      p'.next = min p.next (p.trail.startOf k) := by
  have grounded := fun trail => @Grounded.backtracks p h.toGrounded trail k
  obtain ⟨trail, clauses, watches, next⟩ := p
  refine (Trail.cancelUntil_yields h.trail.toValid hk).bind fun trail' ⟨valid, back⟩ => ?_
  have size := back.length h.trail.toValid
  refine .pure ⟨⟨grounded trail' valid back, h.indexes, ?_, ?_⟩, back, rfl, rfl, ?_⟩
  · intro r l hw _ hl
    change -l ∈ trail'.literals.take (min next trail'.length) at hl
    have left := List.mem_of_mem_take hl
    rw [size, back.literals, List.take_take] at hl
    -- what is false after going back was false in front of `n`
    have before : -l ∈ trail.literals.take n :=
      (List.take_prefix_take_left (Nat.le_trans (Nat.min_le_left ..) reach)).subset hl
    obtain ⟨c, hc, u, hu, true, le⟩ := h.guarded r l hw id before
    have level : trail'.levelOf (-l).var = trail.levelOf l.var :=
      back.levelOf h.trail.toValid left
    have low : trail.levelOf l.var ≤ k := ((back.mem_iff h.trail.toValid).1 left).2
    have stays : u ∈ trail'.literals :=
      (back.mem_iff h.trail.toValid).2 ⟨true, Nat.le_trans le low⟩
    refine ⟨c, hc, u, hu, stays, ?_⟩
    change trail'.levelOf u.var ≤ trail'.levelOf (-l).var
    rw [level, back.levelOf h.trail.toValid stays]
    exact le
  · intro r c hc hr short
    obtain ⟨l, e, true, root⟩ := h.rooted r c hc hr short
    have stays : l ∈ trail'.literals := by
      refine (back.mem_iff h.trail.toValid).2 ⟨true, ?_⟩
      rw [show trail.levelOf l.var = 0 from root]
      exact Nat.zero_le _
    exact ⟨l, e, stays, (back.levelOf h.trail.toValid stays).trans root⟩
  · simp [synchronise, size]

end Watchful

end ClauseLearning.Propagation
